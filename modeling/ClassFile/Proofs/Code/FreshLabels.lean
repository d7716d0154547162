import ClassFile.Proofs.Code.Insertions
/-!
# Labels that are not taken yet

The next label of a body lies behind all labels that are placed in it or used by its handlers, and is the first one
to do so (§1). The labels that instructions jump to are not looked at. So the next label is a new one when the jumps
lead to placed labels (§2), and is not when a jump to it stands in the body already: a jump to the next label leaves the
next label what it was (§3).
-/

namespace ClassFile

instance lawfulOrderMax_uint32 : Std.LawfulOrderMax UInt32 where
  max_le_iff a b c := by
    change (if a ≤ b then b else a) ≤ c ↔ _
    grind
  max_eq_or a b := by
    change (if a ≤ b then b else a) = a ∨ (if a ≤ b then b else a) = b
    grind

namespace Code

/-! ## §1  The first label behind those that are marked -/

/-- All labels that occur in the body: those that are placed, and those that instructions and handlers use. -/
def labels (c : Code) : List Label :=
  c.items.filterMap Item.label? ++ c.usedLabels

variable {c : Code}

theorem mem_placed {l : Label} : l ∈ c.items.filterMap Item.label? ↔ Item.label l ∈ c.items := by
  rw [List.mem_filterMap]
  constructor
  · rintro ⟨item, hitem, hl⟩
    cases item with
    | label l' => exact Option.some.inj hl ▸ hitem
    | instruction i => cases hl
  · exact fun h => ⟨.label l, h, rfl⟩

/-- The marked labels are those that occur other than as the target of an instruction. -/
theorem mem_labels {l : Label} : l ∈ c.labels ↔
    l ∈ c.markedLabels ∨ ∃ i ∈ c.items.filterMap Item.instruction?, l ∈ i.targets := by
  have hhandlers : (c.handlers.flatMap fun h => [h.start, h.stop, h.target]) = c.handlers.flatMap Handler.labels := rfl
  rw [labels, markedLabels, usedLabels, hhandlers]
  simp only [List.mem_append, List.mem_flatMap]
  rw [or_assoc]
  exact or_congr_right or_comm

theorem nextLabel_cases (c : Code) :
    c.markedLabels = [] ∧ c.nextLabel = ⟨0⟩ ∨
    ∃ last ∈ c.markedLabels, c.nextLabel = ⟨last.id + 1⟩ ∧ ∀ l ∈ c.markedLabels, l.id ≤ last.id := by
  unfold nextLabel
  cases hmax : (c.markedLabels.map (·.id)).max? with
  | none =>
      left
      exact ⟨List.map_eq_nil_iff.mp (List.max?_eq_none_iff.mp hmax), rfl⟩
  | some id =>
      right
      obtain ⟨hmem, hmost⟩ := List.max?_eq_some_iff.mp hmax
      obtain ⟨last, hlast, rfl⟩ := List.mem_map.mp hmem
      exact ⟨last, hlast, rfl, fun l hl => hmost l.id (List.mem_map_of_mem hl)⟩

/-- The next label lies behind the marked ones, if the last number of all is not among theirs. -/
theorem lt_nextLabel (hlast : ⟨4294967295⟩ ∉ c.markedLabels) : ∀ l ∈ c.markedLabels, l.id < c.nextLabel.id := by
  intro l hl
  obtain ⟨hnil, -⟩ | ⟨last, hmem, hnext, hmost⟩ := c.nextLabel_cases
  · rw [hnil] at hl
    cases hl
  · have hle := hmost l hl
    have hne : last.id ≠ 4294967295 := by
      intro hid
      apply hlast
      rwa [← hid]
    rw [hnext]
    grind

/-- No label before the next one lies behind the marked ones too. -/
theorem nextLabel_le {id : UInt32} (h : ∀ l ∈ c.markedLabels, l.id < id) : c.nextLabel.id ≤ id := by
  obtain ⟨-, hnext⟩ | ⟨last, hmem, hnext, -⟩ := c.nextLabel_cases
  · rw [hnext]
    exact UInt32.zero_le
  · have hlt := h last hmem
    rw [hnext]
    grind

/-! ## §2  When it is a new one -/

theorem nextLabel_notMem_marked (hlast : ⟨4294967295⟩ ∉ c.markedLabels) : c.nextLabel ∉ c.markedLabels := by
  intro hmem
  exact UInt32.lt_irrefl _ (lt_nextLabel hlast _ hmem)

/-- Only as the target of an instruction can the next label occur in the body. -/
theorem nextLabel_mem_iff (hlast : ⟨4294967295⟩ ∉ c.markedLabels) :
    c.nextLabel ∈ c.labels ↔ ∃ i ∈ c.items.filterMap Item.instruction?, c.nextLabel ∈ i.targets := by
  rw [mem_labels]
  exact or_iff_right (nextLabel_notMem_marked hlast)

/-- The next label of a body whose jumps lead to placed labels does not occur in it. -/
theorem nextLabel_notMem_of_placed (hlast : ⟨4294967295⟩ ∉ c.markedLabels)
    (hplaced : ∀ l ∈ c.usedLabels, Item.label l ∈ c.items) : c.nextLabel ∉ c.labels := by
  intro hmem
  apply nextLabel_notMem_marked hlast
  rcases List.mem_append.mp hmem with hmem | hmem
  · exact List.mem_append_left _ hmem
  · exact List.mem_append_left _ (mem_placed.mpr (hplaced _ hmem))

/-! ## §3  Jumps to it -/

variable {line : Nat} {xs : List (Instruction Label)}

theorem markedLabels_insertAt (c : Code) (line : Nat) (xs : List (Instruction Label)) :
    (c.insertAt line xs).markedLabels = c.markedLabels := by
  have hnone : (xs.map Item.instruction).filterMap Item.label? = [] := by
    rw [List.filterMap_map]
    exact List.filterMap_eq_nil_iff.mpr fun _ _ => rfl
  unfold markedLabels insertAt
  rw [List.filterMap_append, List.filterMap_append, hnone, List.append_nil, ← List.filterMap_append,
    List.take_append_drop]

/-- Instructions that are inserted do not change what the next label is. -/
theorem nextLabel_insertAt (c : Code) (line : Nat) (xs : List (Instruction Label)) :
    (c.insertAt line xs).nextLabel = c.nextLabel := by
  rw [nextLabel, nextLabel, markedLabels_insertAt]

theorem mem_labels_insertAt {l : Label} {x : Instruction Label} (hx : x ∈ xs) (hl : l ∈ x.targets) :
    l ∈ (c.insertAt line xs).labels := by
  refine mem_labels.mpr (.inr ⟨x, ?_, hl⟩)
  rw [instructions_insertAt]
  exact List.mem_append_left _ (List.mem_append_right _ hx)

/-- **The next label is the first one behind the labels that are placed or used by handlers.** It is a new label
exactly if no instruction of the body has it as a target. After instructions that do have it as a target are inserted,
the next label is still the same one, and no longer new. -/
theorem nextLabel_new_iff (c : Code) (hlast : ⟨4294967295⟩ ∉ c.labels) :
    (∀ id, c.nextLabel.id ≤ id ↔ ∀ l ∈ c.markedLabels, l.id < id) ∧
    (c.nextLabel ∉ c.labels ↔ ∀ i ∈ c.items.filterMap Item.instruction?, c.nextLabel ∉ i.targets) ∧
    ((∀ l ∈ c.usedLabels, Item.label l ∈ c.items) → c.nextLabel ∉ c.labels) ∧
    ∀ line xs, (c.insertAt line xs).nextLabel = c.nextLabel ∧
      ((∃ x ∈ xs, c.nextLabel ∈ x.targets) → c.nextLabel ∈ (c.insertAt line xs).labels) := by
  have hmarked : ⟨4294967295⟩ ∉ c.markedLabels := fun h => hlast (mem_labels.mpr (.inl h))
  refine ⟨fun id => ⟨fun hle l hl => ?_, nextLabel_le⟩, ?_, nextLabel_notMem_of_placed hmarked, fun line xs => ⟨?_, ?_⟩⟩
  · exact UInt32.lt_of_lt_of_le (lt_nextLabel hmarked l hl) hle
  · rw [nextLabel_mem_iff hmarked]
    simp only [not_exists, not_and]
  · exact nextLabel_insertAt c line xs
  · rintro ⟨x, hx, hl⟩
    exact mem_labels_insertAt hx hl

/-- A label, and a jump forward to one that is not placed yet. -/
def jumpForward : Code :=
  ⟨0, 0, [.label ⟨3⟩, .instruction (.jump 0xa7 ⟨4⟩)], [], [], []⟩

/-- The label of the jump is given out a second time. -/
theorem nextLabel_jumpForward : jumpForward.nextLabel = ⟨4⟩ ∧ jumpForward.nextLabel ∈ jumpForward.labels := by
  have hlast : ⟨4294967295⟩ ∉ jumpForward.labels := by decide
  obtain ⟨-, hnew, -, -⟩ := nextLabel_new_iff jumpForward hlast
  refine ⟨rfl, ?_⟩
  by_contra hmem
  exact hnew.mp hmem (.jump 0xa7 ⟨4⟩) (by decide) (by decide)

end Code
end ClassFile
