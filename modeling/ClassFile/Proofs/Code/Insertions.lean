import ClassFile.Proofs.Code.Limits
import ClassFile.Proofs.Pool.Room
import Mathlib.Logic.ExistsUnique
/-!
# Instructions inserted into a body

Labels stand among the lines of a body, and their offsets are found anew each time it is written. So nothing has to be kept
up to date when lines are inserted: whatever the bytes in between have become, the offset that is written for a label is
that of the first instruction behind its line (§1). An insertion moves the lines behind it, and the instructions with
them (§2). A label directly in front of it stays where it is, and so leads to what was inserted.

A jump of 16 bits can get too long. Then nothing is written (§3).
-/

namespace ClassFile

open Interning

/-! ## §1  Where labels lead -/

theorem Item.position?_eq_none {t : Label} {items : List Item} (h : Item.label t ∉ items) :
    position? t items = none := by
  induction items with
  | nil => rfl
  | cons item items ih =>
      rw [List.mem_cons, not_or] at h
      obtain ⟨hhead, htail⟩ := h
      cases item with
      | label l =>
          rw [position?, ih htail]
          exact if_neg fun hl => hhead (congrArg Item.label hl.symm)
      | instruction i =>
          rw [position?, ih htail]
          rfl

/-- A label that stands on one line only has its position there. -/
theorem Item.position?_of_line {t : Label} {items : List Item} {line : Nat}
    (h : items[line]? = some (.label t)) (once : ∀ other, items[other]? = some (.label t) → other = line) :
    position? t items = some ((items.take line).filterMap instruction?).length := by
  induction items generalizing line with
  | nil => cases h
  | cons item items ih =>
      cases line with
      | zero =>
          obtain rfl := Option.some.inj h
          have hnone : Item.label t ∉ items := by
            intro hmem
            obtain ⟨other, hother⟩ := List.mem_iff_getElem?.mp hmem
            cases once (other + 1) hother
          rw [position?, position?_eq_none hnone]
          exact if_pos rfl
      | succ line =>
          have htail := ih h fun other hother => Nat.succ.inj (once (other + 1) hother)
          cases item with
          | label l => rw [position?, htail]; rfl
          | instruction i => rw [position?, htail]; rfl

namespace Code

/-- The labels that instructions jump to, and those of the handlers. -/
def usedLabels (c : Code) : List Label :=
  (c.items.filterMap Item.instruction?).flatMap Instruction.targets ++ c.handlers.flatMap Handler.labels

/-- The label stands on one line. -/
def PlacedOnce (c : Code) (t : Label) : Prop :=
  ∃! line : Nat, c.items[line]? = some (.label t)

/-- The number of instructions in front of a line, which is the number of the first one behind it. -/
def instructionsBefore (c : Code) (line : Nat) : Nat :=
  ((c.items.take line).filterMap Item.instruction?).length

/-- The constants that only the pool holds are in it. -/
def Backed (q : Pool) (c : Code) : Prop :=
  ∀ i ∈ c.items.filterMap Item.instruction?, i.Backed q

/-- What is read from the bytes of a body: its instructions and handlers, with an offset for each label, which is
that of the first instruction behind the line of the label, or that of the end. -/
structure Resolved (q : Pool) (c : Code) (body : Bytes) (view : BodyView) (located : List Located)
    (offset : Label → Nat) : Prop where
  parts : BodyView.ofBytes q body = .ok view
  bytecode : Bytecode.read q view.bytecode = .ok located
  instructions : located.map (·.2) =
    (c.items.filterMap Item.instruction?).map fun i => (i.map offset).settled
  handlers : List.Forall₂ (fun h o => OffsetHandler.offsets o = h.labels.map offset ∧
    o.catchType = h.catchType) c.handlers view.handlers
  leads : ∀ t ∈ c.usedLabels, ∀ line, c.items[line]? = some (.label t) →
    (stopsOf view.bytecode.length located)[c.instructionsBefore line]? = some (offset t)

/-- Whatever is written of a body, its labels lead where they should. -/
theorem exists_resolved {p q f : Pool} (wf : p.WellFormed) {c : Code} (backed : c.Backed p)
    (once : ∀ t ∈ c.usedLabels, c.PlacedOnce t) {w : Written} (h : c.written.runOn p = (.ok w, q))
    (hf : q.Grows f) : ∃ view located offset, c.Resolved f w.bytes view located offset := by
  have hgrows : p.Grows q := by
    have hgrows := Steady.grows (m := c.written) p
    rwa [h] at hgrows
  have hlater : p.Grows f := hgrows.trans hf
  have wf' := hlater.wellFormed wf
  have hgives : c.written.Gives f w := Steady.repeats h hf
  obtain ⟨view, hview, hwritten⟩ := view_of_gives wf' hgives
  obtain ⟨l, laid, hhandlers⟩ := hwritten.layout
  have hbody := laid.bodyBytes wf' fun i hi => (backed i hi).grows hlater
  refine ⟨view, LaidOut.readBack l, l.offsetOf, hview, Bytecode.read_eq_ok.mpr hbody, ?_, ?_, ?_⟩
  · rw [LaidOut.map_readBack, ← laid.instructions, List.map_map]
    rfl
  · rw [hhandlers, List.forall₂_map_right_iff, List.forall₂_same]
    intro x hx
    rw [Handler.offsets_located]
    exact ⟨List.map_congr_left fun t ht => laid.toNat_offset (laid.handlers x hx t ht), rfl⟩
  · intro t ht line hline
    have hoffset : l.labelOffset t = .ok (l.offsetOf t) := by
      rcases List.mem_append.mp ht with ht | ht
      · obtain ⟨i, hi, ht⟩ := List.mem_flatMap.mp ht
        rw [← laid.instructions] at hi
        obtain ⟨y, hy, rfl⟩ := List.mem_map.mp hi
        exact laid.targets y hy t ht
      · obtain ⟨x, hx, ht⟩ := List.mem_flatMap.mp ht
        exact laid.handlers x hx t ht
    obtain ⟨n, hn, hstop⟩ := laid.offset t _ hoffset
    have hposition : c.position? t = some (c.instructionsBefore line) :=
      Item.position?_of_line hline fun other hother => (once t ht).unique hother hline
    rw [LaidOut.stops_readBack, ← hstop]
    rw [hn] at hposition
    rw [Option.some.inj hposition]

/-! ## §2  Insertions -/

/-- Where number `n` is found when `count` more are inserted at `point`. -/
def movedBy (point count n : Nat) : Nat :=
  if n < point then n else n + count

/-- The body with instructions inserted in front of a line. -/
def insertAt (c : Code) (line : Nat) (xs : List (Instruction Label)) : Code :=
  { c with items := c.items.take line ++ xs.map Item.instruction ++ c.items.drop line }

variable {c : Code} {line : Nat} {xs : List (Instruction Label)}

theorem instructions_insertAt (c : Code) (line : Nat) (xs : List (Instruction Label)) :
    (c.insertAt line xs).items.filterMap Item.instruction? =
      (c.items.take line).filterMap Item.instruction? ++ xs ++
        (c.items.drop line).filterMap Item.instruction? := by
  have hxs : (xs.map Item.instruction).filterMap Item.instruction? = xs := by
    rw [List.filterMap_map]
    exact List.filterMap_some
  rw [insertAt, List.filterMap_append, List.filterMap_append, hxs]

/-- A line of the body stands behind those that were inserted in front of it. -/
theorem items_insertAt {n : Nat} {item : Item} (h : c.items[n]? = some item) :
    (c.insertAt line xs).items[movedBy line xs.length n]? = some item := by
  obtain ⟨hlt, -⟩ := List.getElem?_eq_some_iff.mp h
  rw [insertAt, movedBy]
  split
  · rename_i hfront
    rw [List.append_assoc, List.getElem?_append_left (by rw [List.length_take]; omega),
      List.getElem?_take_of_lt hfront]
    exact h
  · rename_i hbehind
    have hlength : (c.items.take line ++ xs.map Item.instruction).length = line + xs.length := by
      rw [List.length_append, List.length_take, List.length_map]
      omega
    rw [List.getElem?_append_right (by omega), hlength, List.getElem?_drop]
    rwa [show line + (n + xs.length - (line + xs.length)) = n by omega]

/-- Every label of the body with insertions stands on a line that was there before. -/
theorem line_of_insertAt {n : Nat} {t : Label} (h : (c.insertAt line xs).items[n]? = some (.label t)) :
    ∃ m, n = movedBy line xs.length m ∧ c.items[m]? = some (.label t) := by
  rw [insertAt, List.append_assoc, List.getElem?_append] at h
  split at h
  · rename_i hfront
    rw [List.length_take] at hfront
    rw [List.getElem?_take_of_lt (by omega)] at h
    exact ⟨n, by rw [movedBy, if_pos (by omega)], h⟩
  rename_i hfront
  rw [List.getElem?_append] at h
  split at h
  · -- What was inserted are instructions.
    rw [List.getElem?_map] at h
    obtain ⟨i, -, hi⟩ := Option.map_eq_some_iff.mp h
    cases hi
  · rename_i hbehind
    rw [List.getElem?_drop] at h
    obtain ⟨hlt, -⟩ := List.getElem?_eq_some_iff.mp h
    rw [List.length_take] at hfront
    rw [List.length_take, List.length_map] at hlt hbehind
    rw [List.length_take, List.length_map] at h
    exact ⟨_, by rw [movedBy]; split <;> omega, h⟩

theorem PlacedOnce.insertAt {t : Label} (h : c.PlacedOnce t) : (c.insertAt line xs).PlacedOnce t := by
  obtain ⟨n, hn, hunique⟩ := h
  refine ⟨movedBy line xs.length n, items_insertAt hn, ?_⟩
  intro m hm
  obtain ⟨n', rfl, hn'⟩ := line_of_insertAt hm
  rw [hunique n' hn']

theorem usedLabels_insertAt {t : Label} (h : t ∈ c.usedLabels) : t ∈ (c.insertAt line xs).usedLabels := by
  rw [usedLabels, instructions_insertAt]
  rw [usedLabels, ← List.take_append_drop line c.items, List.filterMap_append] at h
  simp only [List.flatMap_append, List.mem_append] at h ⊢
  rcases h with (h | h) | h
  · exact .inl (.inl (.inl h))
  · exact .inl (.inr h)
  · exact .inr h

theorem instructionsBefore_mono {m n : Nat} (h : m ≤ n) : c.instructionsBefore m ≤ c.instructionsBefore n := by
  have hsublist := (List.take_sublist_take_left (l := c.items) h).filterMap Item.instruction?
  exact hsublist.length_le

/-- The instructions of the body with insertions: those in front, those that were inserted, and those behind. -/
theorem instruction_insertAt {n : Nat} {i : Instruction Label}
    (h : (c.items.filterMap Item.instruction?)[n]? = some i) :
    ((c.insertAt line xs).items.filterMap Item.instruction?)[movedBy (c.instructionsBefore line) xs.length n]? =
      some i := by
  rw [instructions_insertAt, movedBy]
  rw [← List.take_append_drop line c.items, List.filterMap_append] at h
  split
  · rename_i hfront
    rw [List.getElem?_append_left hfront] at h
    rw [List.append_assoc, List.getElem?_append_left hfront]
    exact h
  · rename_i hbehind
    rw [List.getElem?_append_right (Nat.le_of_not_lt hbehind)] at h
    rw [List.getElem?_append_right (by rw [List.length_append]; exact Nat.add_le_add_right (Nat.le_of_not_lt hbehind) _),
      List.length_append, Nat.add_sub_add_right]
    exact h

theorem inserted_insertAt {n : Nat} {i : Instruction Label} (h : xs[n]? = some i) :
    ((c.insertAt line xs).items.filterMap Item.instruction?)[c.instructionsBefore line + n]? = some i := by
  obtain ⟨hlt, -⟩ := List.getElem?_eq_some_iff.mp h
  rw [instructions_insertAt, instructionsBefore, List.append_assoc,
    List.getElem?_append_right (Nat.le_add_right _ _), Nat.add_sub_cancel_left, List.getElem?_append_left hlt]
  exact h

/-- A line in front of the insertion has as many instructions before it as ever, one behind it as many more as were
inserted. -/
theorem instructionsBefore_insertAt {n : Nat} (h : n < c.items.length) :
    (c.insertAt line xs).instructionsBefore (movedBy line xs.length n) =
      if n < line then c.instructionsBefore n else c.instructionsBefore n + xs.length := by
  have hitems : c.items = c.items.take line ++ c.items.drop line := (List.take_append_drop line c.items).symm
  rw [movedBy]
  split
  · rename_i hfront
    rw [instructionsBefore, insertAt, List.append_assoc, List.take_append_of_le_length
      (by rw [List.length_take]; omega), List.take_take, Nat.min_eq_left (Nat.le_of_lt hfront)]
    rfl
  · rename_i hbehind
    have hlength : (c.items.take line ++ xs.map Item.instruction).length = line + xs.length := by
      rw [List.length_append, List.length_take, List.length_map]
      omega
    have hxs : (xs.map Item.instruction).filterMap Item.instruction? = xs := by
      rw [List.filterMap_map]
      exact List.filterMap_some
    have hbefore : c.items.take n = c.items.take line ++ (c.items.drop line).take (n - line) := by
      rw [← List.take_add, Nat.add_sub_cancel' (Nat.le_of_not_lt hbehind)]
    have hmore : n + xs.length = (c.items.take line ++ xs.map Item.instruction).length + (n - line) := by
      omega
    rw [instructionsBefore, insertAt, hmore, List.take_length_add_append, instructionsBefore, hbefore]
    simp only [List.filterMap_append, List.length_append, hxs]
    omega

/-- The body `c'` is `c` with `xs` in front of a line: every instruction is found again, and every label leads to the one
that it led to, but for the labels directly in front of `xs`, which lead to the first of them. -/
structure Insertion (c : Code) (line : Nat) (xs : List (Instruction Label)) (c' : Code) : Prop where
  kept : ∀ n i, (c.items.filterMap Item.instruction?)[n]? = some i →
    (c'.items.filterMap Item.instruction?)[movedBy (c.instructionsBefore line) xs.length n]? = some i
  inserted : ∀ n i, xs[n]? = some i →
    (c'.items.filterMap Item.instruction?)[c.instructionsBefore line + n]? = some i
  labels : ∀ n t, c.items[n]? = some (.label t) →
    c'.items[movedBy line xs.length n]? = some (.label t)
  leads : ∀ n t, c.items[n]? = some (.label t) → c'.instructionsBefore (movedBy line xs.length n) =
    if n < line ∧ c.instructionsBefore n = c.instructionsBefore line then c.instructionsBefore line
    else movedBy (c.instructionsBefore line) xs.length (c.instructionsBefore n)

theorem insertion_insertAt (c : Code) (line : Nat) (xs : List (Instruction Label)) :
    c.Insertion line xs (c.insertAt line xs) where
  kept _ _ h := instruction_insertAt h
  inserted _ _ h := inserted_insertAt h
  labels _ _ h := items_insertAt h
  leads n t h := by
    obtain ⟨hlt, -⟩ := List.getElem?_eq_some_iff.mp h
    rw [instructionsBefore_insertAt hlt, movedBy]
    by_cases hfront : n < line
    · have hle := instructionsBefore_mono (c := c) (Nat.le_of_lt hfront)
      rw [if_pos hfront]
      split
      · rename_i heq
        exact heq.2
      · rename_i hne
        have hlt : c.instructionsBefore n < c.instructionsBefore line :=
          Nat.lt_of_le_of_ne hle fun heq => hne ⟨hfront, heq⟩
        rw [if_pos hlt]
    · have hle := instructionsBefore_mono (c := c) (Nat.le_of_not_lt hfront)
      rw [if_neg hfront, if_neg fun h => hfront h.1, if_neg (Nat.not_lt_of_le hle)]

end Code

/-! ## §3  Jumps that are too long -/

namespace Placed

open Instruction

variable {l : Layout} {y : Placed} {e : Error}

/-- A jump of 16 bits whose label stands farther away. -/
def OutOfReach (l : Layout) (y : Placed) : Prop :=
  ∃ op t target, y.instruction = .jump op t ∧ op.isFarJump = false ∧ l.labelOffset t = .ok target ∧
    ¬ (-32768 ≤ (target : Int) - (y.offset : Int) ∧ (target : Int) - (y.offset : Int) ≤ 32767)

theorem OutOfReach.bytes_eq (h : y.OutOfReach l) : ∃ d, y.bytes l = refuse (.farJump d) := by
  obtain ⟨op, t, target, hy, hop, ht, hfar⟩ := h
  refine ⟨(target : Int) - (y.offset : Int), ?_⟩
  simp only [Placed.bytes, hy, jumpBytes, distance, ht, hop]
  exact if_neg hfar

/-- The instruction is a call of an interface whose arguments cannot be counted. -/
def MalformedCall (y : Placed) (e : Error) : Prop :=
  ∃ m b reason, y.instruction = .call Opcode.invokeinterface m b ∧ e = .malformedDescriptor m.descriptor reason

theorem unencodable_of_labelOffset {t : Label} (h : l.labelOffset t = .error e) :
    ∃ reason, e = .unencodable reason := by
  rw [Layout.labelOffset] at h
  split at h
  · cases h
  · exact ⟨_, (Except.error.inj h).symm⟩

theorem unencodable_of_farBytes {o : Nat} {t : Label} (h : farBytes l o t = .error e) :
    ∃ reason, e = .unencodable reason := by
  rcases except_bind_eq_error.mp h with h | ⟨d, -, h⟩
  · rcases except_bind_eq_error.mp h with h | ⟨n, -, h⟩
    · exact unencodable_of_labelOffset h
    · cases h
  · cases h

/-- An instruction that is not written has no form for what it says, but for such a call. -/
theorem cases_of_bytes (h : y.bytes l = .error e) : (∃ reason, e = .unencodable reason) ∨ y.MalformedCall e := by
  obtain ⟨o, i, k⟩ := y
  cases i with
  | immediate op n =>
      left
      simp only [Placed.bytes, immediateBytes, refuse] at h
      split_ifs at h
      · exact ⟨_, (Except.error.inj h).symm⟩
      · exact ⟨_, (Except.error.inj h).symm⟩
      · exact ⟨_, (Except.error.inj h).symm⟩
  | call op m b =>
      rcases except_bind_eq_error.mp h with h | ⟨tail, -, h⟩
      · obtain ⟨rfl, ⟨reason, rfl⟩ | rfl⟩ := callTail_eq_error h
        · exact .inr ⟨m, b, reason, rfl, rfl⟩
        · exact .inl ⟨_, rfl⟩
      · cases h
  | jump op t =>
      left
      rcases except_bind_eq_error.mp h with h | ⟨d, -, h⟩
      · rcases except_bind_eq_error.mp h with h | ⟨n, -, h⟩
        · exact unencodable_of_labelOffset h
        · cases h
      · split_ifs at h
        · cases h
        · cases h
        · exact ⟨_, (Except.error.inj h).symm⟩
  | tableSwitch low high default ts =>
      left
      simp only [Placed.bytes, tableSwitchBytes] at h
      split at h
      · exact ⟨_, (Except.error.inj h).symm⟩
      · rcases except_bind_eq_error.mp h with h | ⟨d, -, h⟩
        · exact unencodable_of_farBytes h
        rcases except_bind_eq_error.mp h with h | ⟨chunks, -, h⟩
        · obtain ⟨t, -, h⟩ := exists_of_except_mapM_eq_error h
          exact unencodable_of_farBytes h
        · cases h
  | lookupSwitch default arms =>
      left
      rcases except_bind_eq_error.mp h with h | ⟨d, -, h⟩
      · exact unencodable_of_farBytes h
      rcases except_bind_eq_error.mp h with h | ⟨chunks, -, h⟩
      · obtain ⟨arm, -, h⟩ := exists_of_except_mapM_eq_error h
        rcases except_bind_eq_error.mp h with h | ⟨d, -, h⟩
        · exact unencodable_of_farBytes h
        · cases h
      · cases h
  | _ => cases h

end Placed

namespace Code

/-- With a jump that is too long there are no bytes. The reason is that jump, or what is found wrong in front of it. -/
theorem refused_of_outOfReach {c : Code} {p q : Pool} {lines : List (Item × UInt16)}
    (hlines : (c.items.mapM Item.numbered).runOn p = (.ok lines, q)) {front behind : List Placed} {y : Placed}
    (hplaced : (Layout.ofLines lines).placed = front ++ y :: behind) (h : y.OutOfReach (Layout.ofLines lines)) :
    ∃ e, (c.written.runOn p).1 = .error e ∧
      ((∃ reason, e = .unencodable reason) ∨ ∃ x ∈ front, x.MalformedCall e) := by
  unfold written
  rw [runOn_bind_ok _ hlines]
  cases hcheck : (Layout.ofLines lines).checkLength with
  | error e =>
      refine ⟨e, congrArg Prod.fst (runOn_bind_error _ (runOn_lift _ _)), .inl ?_⟩
      rw [Layout.checkLength] at hcheck
      split_ifs at hcheck
      · exact ⟨_, (Except.error.inj hcheck).symm⟩
      · exact ⟨_, (Except.error.inj hcheck).symm⟩
  | ok l =>
      obtain ⟨rfl, -⟩ := checkLength_eq_ok.mp hcheck
      obtain ⟨d, hd⟩ := h.bytes_eq
      obtain ⟨e, he, hcause⟩ := except_mapM_eq_error_of_append front behind hd
      have hbytecode : (Layout.ofLines lines).bytecode = .error e := by
        rw [Layout.bytecode, hplaced, he]
        rfl
      refine ⟨e, ?_, ?_⟩
      · rw [runOn_bind_ok _ (runOn_lift _ _), hbytecode]
        exact congrArg Prod.fst (runOn_bind_error _ (runOn_lift _ _))
      · rcases hcause with rfl | ⟨x, hx, hbad⟩
        · exact .inl ⟨_, rfl⟩
        · rcases Placed.cases_of_bytes hbad with hreason | hcall
          · exact .inl hreason
          · exact .inr ⟨x, hx, hcall⟩

/-- **Insertions.** Instructions are inserted into a body, which may jump to its labels. If the body is written before and
after, every jump, switch and handler leads to the first instruction behind its label in either; that is the same instruction
as before, but for labels directly in front of the insertion. A jump that got too long is never written with another
distance. -/
theorem resolved_insertAt {c : Code} {line : Nat} {xs : List (Instruction Label)}
    (once : ∀ t ∈ (c.insertAt line xs).usedLabels, c.PlacedOnce t) :
    c.Insertion line xs (c.insertAt line xs) ∧
      (∀ {p q f p' q' f' : Pool} {w w' : Written}, p.WellFormed → c.Backed p →
        c.written.runOn p = (.ok w, q) → q.Grows f → p'.WellFormed → (c.insertAt line xs).Backed p' →
        (c.insertAt line xs).written.runOn p' = (.ok w', q') → q'.Grows f' →
          (∃ view located offset, c.Resolved f w.bytes view located offset) ∧
            ∃ view located offset, (c.insertAt line xs).Resolved f' w'.bytes view located offset) ∧
      ∀ {p q : Pool} {lines : List (Item × UInt16)} {front behind : List Placed} {y : Placed},
        ((c.insertAt line xs).items.mapM Item.numbered).runOn p = (.ok lines, q) →
        (Layout.ofLines lines).placed = front ++ y :: behind → y.OutOfReach (Layout.ofLines lines) →
          ∃ e, ((c.insertAt line xs).written.runOn p).1 = .error e ∧
            ((∃ reason, e = .unencodable reason) ∨ ∃ x ∈ front, x.MalformedCall e) := by
  refine ⟨insertion_insertAt c line xs, ?_, fun hlines hplaced h => refused_of_outOfReach hlines hplaced h⟩
  intro p q f p' q' f' w w' wf backed h hf wf' backed' h' hf'
  constructor
  · exact exists_resolved wf backed (fun t ht => once t (usedLabels_insertAt ht)) h hf
  · exact exists_resolved wf' backed' (fun t ht => (once t ht).insertAt) h' hf'

end Code

/-! ## §4  A loop -/

namespace Layout

variable {q : Pool}

/-- Every instruction takes a byte at least. -/
theorem le_offset_of_arrange {o : Nat} {ls : List (Instruction Label × UInt16)} {front behind : List Placed}
    {y : Placed} (h : arrange o ls = front ++ y :: behind) : o + front.length ≤ y.offset := by
  induction front generalizing o ls with
  | nil =>
      cases ls with
      | nil => cases h
      | cons x ls =>
          obtain ⟨rfl, -⟩ := List.cons.inj h
          exact Nat.le_refl o
  | cons z front ih =>
      cases ls with
      | nil => cases h
      | cons x ls =>
          obtain ⟨-, htail⟩ := List.cons.inj h
          have hpos := x.1.size_pos x.2 o
          have hle := ih htail
          rw [List.length_cons]
          omega

theorem extent_append (o : Nat) (as bs : List (Instruction Label × UInt16)) :
    extent o (as ++ bs) = extent (extent o as) bs := by
  induction as generalizing o with
  | nil => rfl
  | cons x as ih => exact ih _

/-- Instructions without operands take a byte each. -/
theorem extent_plain {o : Nat} {ls : List (Instruction Label × UInt16)}
    (h : ∀ x ∈ ls, ∃ op, x.1 = .plain op) : extent o ls = o + ls.length := by
  induction ls generalizing o with
  | nil => rfl
  | cons x ls ih =>
      obtain ⟨op, hop⟩ := h x List.mem_cons_self
      have hsize : x.1.size x.2 o = 1 := by
        rw [hop]
        rfl
      rw [extent, hsize, ih fun y hy => h y (List.mem_cons_of_mem _ hy), List.length_cons]
      omega

end Layout

namespace Code

/-- A `goto` to the first label. -/
def jumpBack : Instruction Label := .jump 0xa7 ⟨0⟩

/-- A jump to itself. -/
def loop : Code := ⟨0, 0, [.label ⟨0⟩, .instruction jumpBack], [], [], []⟩

/-- Instructions that do nothing. -/
def idle (n : Nat) : List (Instruction Label) := List.replicate n (.plain 0x00)

/-- A call with a descriptor that is none. -/
def brokenCall : Instruction Label := .call Opcode.invokeinterface ⟨"A", "m", "x"⟩ true

variable {q : Pool} {xs : List (Instruction Label)}

theorem items_loop (xs : List (Instruction Label)) :
    (loop.insertAt 1 xs).items = .label ⟨0⟩ :: (xs ++ [jumpBack]).map Item.instruction := by
  rw [List.map_append]
  rfl

theorem instructions_loop (xs : List (Instruction Label)) :
    (loop.insertAt 1 xs).items.filterMap Item.instruction? = xs ++ [jumpBack] :=
  instructions_insertAt loop 1 xs

theorem placedOnce_loop : loop.PlacedOnce ⟨0⟩ := by
  refine ⟨0, rfl, ?_⟩
  intro n hn
  match n with
  | 0 => rfl
  | 1 => cases hn
  | n + 2 => cases hn

/-- What is inserted has no targets of its own, so the only label is that of the loop. -/
theorem once_loop (h : ∀ i ∈ xs, i.targets = []) : ∀ t ∈ (loop.insertAt 1 xs).usedLabels, loop.PlacedOnce t := by
  intro t ht
  rw [usedLabels, instructions_loop, List.flatMap_append] at ht
  have hnone : xs.flatMap Instruction.targets = [] := List.flatMap_eq_nil_iff.mpr h
  rw [hnone] at ht
  obtain rfl := List.mem_singleton.mp ht
  exact placedOnce_loop

theorem targets_idle (n : Nat) : ∀ i ∈ idle n, i.targets = [] := by
  intro i hi
  rw [List.eq_of_mem_replicate hi]
  rfl

theorem gives_idle (n : Nat) (q : Pool) : ∃ lines, (((idle n ++ [jumpBack]).map Item.instruction).mapM
    Item.numbered).Gives q lines := by
  refine ⟨(idle n ++ [jumpBack]).map fun i => (.instruction i, 0), gives_mapM.mpr ?_⟩
  rw [List.forall₂_map_left_iff, List.forall₂_map_right_iff, List.forall₂_same]
  intro i hi
  refine Item.gives_numbered.mpr (.instruction ?_)
  rcases List.mem_append.mp hi with hi | hi
  · rw [List.eq_of_mem_replicate hi]
    exact ⟨rfl, gives_pure.mpr rfl⟩
  · rw [List.mem_singleton.mp hi]
    exact ⟨rfl, gives_pure.mpr rfl⟩

theorem numbered_idle (n : Nat) (q : Pool) : ∃ lines,
    ((loop.insertAt 1 (idle n)).items.mapM Item.numbered).Gives q lines := by
  obtain ⟨lines, hlines⟩ := gives_idle n q
  refine ⟨(.label ⟨0⟩, 0) :: lines, ?_⟩
  rw [items_loop]
  exact gives_mapM.mpr (.cons (gives_pure.mpr rfl) (gives_mapM.mp hlines))

/-- A loop over that many instructions is out of reach. -/
theorem outOfReach_loop {lines : List (Item × UInt16)}
    (h : List.Forall₂ (Item.Numbered q) (loop.insertAt 1 xs).items lines) (hlong : 32768 < xs.length) :
    ∃ front y, (Layout.ofLines lines).placed = front ++ [y] ∧ y.OutOfReach (Layout.ofLines lines) ∧
      front.map (·.instruction) = xs := by
  have hplaced := Layout.instructions_placed h
  rw [instructions_loop] at hplaced
  obtain ⟨front, last, hsplit, hfront, hlast⟩ := List.map_eq_append_iff.mp hplaced
  obtain ⟨y, rfl, hy⟩ := List.map_eq_singleton_iff.mp hlast
  have hoffset : (Layout.ofLines lines).labelOffset ⟨0⟩ = .ok 0 := by
    rw [Layout.labelOffset_ofLines, Item.map_fst_of_numbered h]
    refine ⟨0, ?_, Layout.head_stops _ _⟩
    exact @Item.position?_of_line ⟨0⟩ (loop.insertAt 1 xs).items 0 rfl fun other hother =>
      (PlacedOnce.insertAt placedOnce_loop).unique hother rfl
  rw [Layout.placed_ofLines] at hsplit
  have hle := Layout.le_offset_of_arrange hsplit
  have hlength : front.length = xs.length := by
    rw [← hfront, List.length_map]
  refine ⟨front, y, by rw [Layout.placed_ofLines, hsplit], ⟨_, _, 0, hy, rfl, hoffset, ?_⟩, hfront⟩
  omega

theorem exists_written {c : Code} {bytes : Bytes} {located : List Located} {f : Nat → Label}
    (h : BodyBytes (Instruction.Writes q) 0 bytes located)
    (hitems : c.items.filterMap Item.instruction? = located.map fun x => x.2.map f)
    (hlabels : ∀ x ∈ located, ∀ t ∈ x.2.targets, ∃ p, Item.position? (f t) c.items = some p ∧
      (stopsOf bytes.length located)[p]? = some t)
    (hlength : bytes.length ≤ 65535) (hne : bytes.length ≠ 0) (hhandlers : c.handlers = [])
    (hattributes : c.attributes = []) : ∃ w, c.written.Gives q w := by
  obtain ⟨lines, hlines, -, hlast, hbytecode⟩ := Layout.bytecode_of_bodyBytes h hitems hlabels
  have htable : (Attribute.tableBytes [] c.attributes [] c.order).Gives q (Bytes.ofUInt16 0) := by
    rw [hattributes]
    exact Attribute.gives_tableBytes_nil q c.order
  rw [← hlast] at hlength hne
  refine ⟨_, gives_written.mpr ⟨lines, bytes, [], _, hlines, hlength, hne, hbytecode, ?_, ?_, htable, rfl⟩⟩
  · rw [hhandlers]
    exact Nat.zero_le _
  · rw [hhandlers]
    exact .nil

theorem written_loop (q : Pool) : ∃ w, loop.written.Gives q w := by
  have hjump : Instruction.Writes q 0 [0xa7, 0x00, 0x00] (.jump 0xa7 0) :=
    ⟨rfl, 0, gives_pure.mpr rfl, rfl⟩
  have hbody : BodyBytes (Instruction.Writes q) 0 [0xa7, 0x00, 0x00] [(0, .jump 0xa7 0)] :=
    .cons hjump (.nil _)
  refine exists_written (f := fun _ => ⟨0⟩) hbody rfl ?_ (by decide) (by decide) rfl rfl
  intro x hx t ht
  obtain rfl := List.mem_singleton.mp hx
  obtain rfl := List.mem_singleton.mp ht
  exact ⟨0, rfl, rfl⟩

theorem written_idle (q : Pool) : ∃ w, (loop.insertAt 1 (idle 1)).written.Gives q w := by
  have hidle : Instruction.Writes q 0 [0x00] (.plain 0x00) := ⟨rfl, 0, gives_pure.mpr rfl, rfl⟩
  have hjump : Instruction.Writes q 1 [0xa7, 0xff, 0xff] (.jump 0xa7 0) :=
    ⟨rfl, 0, gives_pure.mpr rfl, rfl⟩
  have hbody : BodyBytes (Instruction.Writes q) 0 [0x00, 0xa7, 0xff, 0xff]
      [(0, .plain 0x00), (1, .jump 0xa7 0)] :=
    .cons hidle (.cons hjump (.nil _))
  refine exists_written (f := fun _ => ⟨0⟩) hbody rfl ?_ (by decide) (by decide) rfl rfl
  intro x hx t ht
  rcases List.mem_pair.mp hx with rfl | rfl
  · cases ht
  · obtain rfl := List.mem_singleton.mp ht
    exact ⟨0, rfl, rfl⟩

theorem backed_loop (n : Nat) (q : Pool) : (loop.insertAt 1 (idle n)).Backed q := by
  intro i hi
  rw [instructions_loop] at hi
  rcases List.mem_append.mp hi with hi | hi
  · rw [List.eq_of_mem_replicate hi]
    trivial
  · rw [List.mem_singleton.mp hi]
    trivial

/-- One instruction in the loop, and too many of them. -/
theorem resolved_insertAt_idle :
    (∀ t ∈ (loop.insertAt 1 (idle 1)).usedLabels, loop.PlacedOnce t) ∧
      loop.Insertion 1 (idle 1) (loop.insertAt 1 (idle 1)) ∧
      (∃ w w', loop.written.runOn Pool.empty = (.ok w, Pool.empty) ∧
        (loop.insertAt 1 (idle 1)).written.runOn Pool.empty = (.ok w', Pool.empty) ∧
        (∃ view located offset, loop.Resolved Pool.empty w.bytes view located offset) ∧
          ∃ view located offset,
            (loop.insertAt 1 (idle 1)).Resolved Pool.empty w'.bytes view located offset) ∧
      ∃ (lines : List (Item × UInt16)) (front : List Placed) (y : Placed),
        ((loop.insertAt 1 (idle 32769)).items.mapM Item.numbered).runOn Pool.empty = (.ok lines, Pool.empty) ∧
        (Layout.ofLines lines).placed = front ++ [y] ∧ y.OutOfReach (Layout.ofLines lines) ∧
          ∃ e, ((loop.insertAt 1 (idle 32769)).written.runOn Pool.empty).1 = .error e ∧
            ((∃ reason, e = .unencodable reason) ∨ ∃ x ∈ front, x.MalformedCall e) := by
  have once := once_loop (targets_idle 1)
  obtain ⟨hinsertion, hresolved, -⟩ := resolved_insertAt once
  obtain ⟨w, hw⟩ := written_loop Pool.empty
  obtain ⟨w', hw'⟩ := written_idle Pool.empty
  have hread := hresolved Pool.wellFormed_empty (backed_loop 0 _) hw (.refl _) Pool.wellFormed_empty
    (backed_loop 1 _) hw' (.refl _)
  obtain ⟨-, -, hrefused⟩ := resolved_insertAt (once_loop (targets_idle 32769))
  obtain ⟨lines, hlines⟩ := numbered_idle 32769 Pool.empty
  have hnumbered := (gives_mapM.mp hlines).imp fun _ _ hline => Item.gives_numbered.mp hline
  obtain ⟨front, y, hplaced, hfar, -⟩ := outOfReach_loop hnumbered (by rw [idle, List.length_replicate]; decide)
  exact ⟨once, hinsertion, ⟨w, w', hw, hw', hread⟩, lines, front, y, hlines, hplaced, hfar,
    hrefused hlines hplaced hfar⟩

theorem needs_brokenCall : (Item.numbered (.instruction brokenCall)).Needs 6 := by
  have hfits : (Entry.utf8 "A").Fits ∧ (Entry.utf8 "m").Fits ∧ (Entry.utf8 "x").Fits := by
    refine ⟨?_, ?_, ?_⟩ <;> (show _ ≤ _; decide)
  have hindex : brokenCall.operandIndex.Needs 6 :=
    @needs_methodRef ⟨"A", "m", "x"⟩ true hfits.1 hfits.2.1 hfits.2.2
  rw [Item.numbered, if_pos (show brokenCall.opcodeFits = true from rfl)]
  exact needs_bind hindex fun k => needs_pure _

theorem length_brokenCall {lines : List (Item × UInt16)} (n : Nat)
    (h : List.Forall₂ (Item.Numbered q) (loop.insertAt 1 (brokenCall :: idle n)).items lines) :
    (Layout.ofLines lines).length = n + 8 := by
  have hls := Layout.instructions_placed h
  rw [Layout.placed_ofLines, Layout.instructions_arrange, instructions_loop] at hls
  obtain ⟨x, ls, hsplit, hx, hrest⟩ := List.map_eq_cons_iff.mp hls
  obtain ⟨mid, last, rfl, hmid, hlast⟩ := List.map_eq_append_iff.mp hrest
  obtain ⟨y, rfl, hy⟩ := List.map_eq_singleton_iff.mp hlast
  have hplain : ∀ z ∈ mid, ∃ op, z.1 = .plain op := by
    intro z hz
    have hmem : z.1 ∈ idle n := hmid ▸ List.mem_map_of_mem hz
    exact ⟨_, List.eq_of_mem_replicate hmem⟩
  have hlength : mid.length = n := by
    have hlength := congrArg List.length hmid
    rwa [List.length_map, idle, List.length_replicate] at hlength
  obtain ⟨i, k⟩ := x
  obtain ⟨j, m⟩ := y
  subst hx hy
  rw [Layout.length_ofLines, hsplit, Layout.extent, Layout.extent_append, Layout.extent_plain hplain, hlength]
  show 0 + 5 + n + 3 = n + 8
  omega

/-- The call in front of the jump is what is found wrong first. -/
theorem written_brokenCall :
    (∀ t ∈ (loop.insertAt 1 (brokenCall :: idle 32768)).usedLabels, loop.PlacedOnce t) ∧
      (∃ w, loop.written.runOn Pool.empty = (.ok w, Pool.empty)) ∧
      ∃ (lines : List (Item × UInt16)) (q : Pool) (front : List Placed) (y : Placed),
        ((loop.insertAt 1 (brokenCall :: idle 32768)).items.mapM Item.numbered).runOn Pool.empty = (.ok lines, q) ∧
        (Layout.ofLines lines).placed = front ++ [y] ∧ y.OutOfReach (Layout.ofLines lines) ∧
          ((loop.insertAt 1 (brokenCall :: idle 32768)).written.runOn Pool.empty).1 =
            .error (.malformedDescriptor "x" .noOpeningParenthesis) := by
  have once : ∀ t ∈ (loop.insertAt 1 (brokenCall :: idle 32768)).usedLabels, loop.PlacedOnce t := by
    refine once_loop fun i hi => ?_
    rcases List.mem_cons.mp hi with rfl | hi
    · rfl
    · exact targets_idle _ i hi
  obtain ⟨call, q, hcall, -⟩ := needs_brokenCall Pool.empty (by decide)
  obtain ⟨rest, hrest⟩ := gives_idle 32768 q
  have hlines : ((loop.insertAt 1 (brokenCall :: idle 32768)).items.mapM Item.numbered).runOn Pool.empty =
      (.ok ((.label ⟨0⟩, 0) :: call :: rest), q) := by
    have hlabel : (Item.label ⟨0⟩).numbered.runOn Pool.empty = (.ok (.label ⟨0⟩, 0), Pool.empty) :=
      runOn_pure _ _
    rw [items_loop, List.mapM_cons, List.cons_append, List.map_cons, List.mapM_cons]
    rw [runOn_bind_ok _ hlabel, bind_assoc, runOn_bind_ok _ hcall, bind_assoc, runOn_bind_ok _ hrest]
    rfl
  have hnumbered : List.Forall₂ (Item.Numbered q) (loop.insertAt 1 (brokenCall :: idle 32768)).items
      ((.label ⟨0⟩, 0) :: call :: rest) :=
    (gives_mapM.mp (Steady.gives hlines)).imp fun _ _ hline => Item.gives_numbered.mp hline
  obtain ⟨front, y, hplaced, hfar, hfront⟩ := outOfReach_loop hnumbered
    (by rw [List.length_cons, idle, List.length_replicate]; decide)
  have hcheck : (Layout.ofLines ((.label ⟨0⟩, 0) :: call :: rest)).checkLength =
      .ok (Layout.ofLines ((.label ⟨0⟩, 0) :: call :: rest)) := by
    rw [checkLength_eq_ok, length_brokenCall 32768 hnumbered]
    exact ⟨rfl, by decide, by decide⟩
  have hbytecode : (Layout.ofLines ((.label ⟨0⟩, 0) :: call :: rest)).bytecode =
      .error (.malformedDescriptor "x" .noOpeningParenthesis) := by
    obtain ⟨z, zs, rfl, hz, -⟩ := List.map_eq_cons_iff.mp hfront
    have hbad : z.bytes (Layout.ofLines ((.label ⟨0⟩, 0) :: call :: rest)) =
        .error (.malformedDescriptor "x" .noOpeningParenthesis) := by
      rw [Placed.bytes, hz]
      rfl
    rw [Layout.bytecode, hplaced, List.cons_append, List.mapM_cons, hbad]
    rfl
  obtain ⟨w, hw⟩ := written_loop Pool.empty
  refine ⟨once, ⟨w, hw⟩, _, q, front, y, hlines, hplaced, hfar, ?_⟩
  unfold written
  rw [runOn_bind_ok _ hlines, hcheck, runOn_bind_ok _ (runOn_lift _ _), hbytecode]
  exact congrArg Prod.fst (runOn_bind_error _ (runOn_lift _ _))

end Code

end ClassFile
