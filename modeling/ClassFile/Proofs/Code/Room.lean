import ClassFile.Proofs.Code.Limits
import ClassFile.Proofs.Pool.Room
/-!
# Room for a body

A body is refused if the pool has no room for what its instructions refer to, if it is too long, or for reasons of
single instructions. Instructions that refer to local variables and fields only give no such reasons, and they are
short. So a body of these is written as soon as the pool has room (§2).
-/

namespace ClassFile

open Interning

/-! ## §1  Steps that depend on each other -/

namespace Interning

variable {α β : Type}

/-- What is done next may ask for less if the answer so far is known. -/
theorem needs_bind_of_gives {x : Interning α} [Steady x] {f : α → Interning β} {m n : Nat} (hx : x.Needs m)
    (hf : ∀ q a, x.Gives q a → (f a).Needs n) : (x >>= f).Needs (m + n) := by
  intro p room
  obtain ⟨a, p', hrun, hsize⟩ := hx p (by omega)
  obtain ⟨b, q, hrun', hsize'⟩ := hf p' a (Steady.gives hrun) p' (by omega)
  refine ⟨b, q, ?_, by omega⟩
  rw [runOn_bind_ok f hrun]
  exact hrun'

/-- Items that ask for different numbers of slots. -/
theorem needs_mapM_sum {f : α → Interning β} {as : List α} {ns : List Nat}
    (h : List.Forall₂ (fun a n => (f a).Needs n) as ns) : (as.mapM f).Needs ns.sum := by
  induction h with
  | nil =>
      rw [List.mapM_nil]
      exact needs_pure []
  | cons head _ ih =>
      rw [List.mapM_cons, List.sum_cons]
      exact needs_bind head fun b => needs_bind (n := 0) ih fun bs => needs_pure (b :: bs)

theorem needs_lift {x : Except Error α} {a : α} (h : x = .ok a) : (liftM x : Interning α).Needs 0 :=
  needs_zero fun _ => gives_lift.mpr h

theorem needs_fieldRef {m : MemberRef} (howner : (Entry.utf8 m.owner).Fits) (hname : (Entry.utf8 m.name).Fits)
    (hdescriptor : (Entry.utf8 m.descriptor).Fits) : (fieldRef m).Needs 6 :=
  needs_bind (n := 4) (needs_className howner) fun owner =>
    needs_bind (n := 1) (needs_nameAndType hname hdescriptor) fun nt => needs_entry (.fieldRef owner nt)

end Interning

/-! ## §2  Light bodies -/

/-- An instruction on local variables, fields or the stack alone, and the slots that it asks for in the pool. -/
inductive Instruction.Light : Instruction Label → Nat → Prop
  | plain {op : Opcode} (h : op.isPlain = true) : Light (.plain op) 0
  | localVar {op : Opcode} (h : op.isLocal = true) (index : UInt16) : Light (.localVar op index) 0
  | field {op : Opcode} {m : MemberRef} (h : op.isFieldAccess = true) (howner : (Entry.utf8 m.owner).Fits)
      (hname : (Entry.utf8 m.name).Fits) (hdescriptor : (Entry.utf8 m.descriptor).Fits) : Light (.field op m) 6

namespace Instruction.Light

variable {i : Instruction Label} {n : Nat}

theorem opcodeFits (h : i.Light n) : i.opcodeFits = true := by
  cases h with
  | plain h => exact h
  | localVar h => exact h
  | field h => exact h

theorem needs_numbered (h : i.Light n) : (Item.numbered (.instruction i)).Needs n := by
  have hoperand : i.operandIndex.Needs n := by
    cases h with
    | plain => exact needs_pure 0
    | localVar => exact needs_pure 0
    | field _ howner hname hdescriptor => exact needs_fieldRef howner hname hdescriptor
  rw [Item.numbered, if_pos h.opcodeFits]
  exact needs_bind (n := 0) hoperand fun k => needs_pure _

theorem size_le (h : i.Light n) (operand : UInt16) (o : Nat) : i.size operand o ≤ 4 := by
  cases h with
  | plain => exact Nat.le_of_ble_eq_true rfl
  | localVar =>
      rw [size]
      split
      · decide
      · split <;> decide
  | field => exact Nat.le_of_ble_eq_true rfl

theorem exists_bytes (h : i.Light n) (l : Layout) (o : Nat) (operand : UInt16) :
    ∃ bs, Placed.bytes l ⟨o, i, operand⟩ = .ok bs := by
  cases h <;> exact ⟨_, rfl⟩

end Instruction.Light

namespace Layout

theorem extent_le (o : Nat) {ls : List (Instruction Label × UInt16)}
    (h : ∀ x ∈ ls, ∀ o, x.1.size x.2 o ≤ 4) : extent o ls ≤ o + 4 * ls.length := by
  induction ls generalizing o with
  | nil => exact Nat.le_refl o
  | cons x ls ih =>
      have hhead := h x List.mem_cons_self o
      have htail := ih (o + x.1.size x.2 o) fun y hy => h y (List.mem_cons_of_mem x hy)
      rw [extent, List.length_cons]
      omega

variable {q : Pool} {items : List Item} {lines : List (Item × UInt16)}

theorem numberedInstructions_eq (h : List.Forall₂ (Item.Numbered q) items lines) :
    (lines.filterMap Item.numberedInstruction?).map (·.1) = items.filterMap Item.instruction? := by
  rw [← instructions_placed h, placed_ofLines, instructions_arrange]

theorem length_ofLines_le (h : List.Forall₂ (Item.Numbered q) items lines)
    (light : ∀ i ∈ items.filterMap Item.instruction?, ∃ n, i.Light n) : (ofLines lines).length ≤ 4 * items.length := by
  have hsizes : ∀ x ∈ lines.filterMap Item.numberedInstruction?, ∀ o, x.1.size x.2 o ≤ 4 := by
    intro x hx o
    obtain ⟨n, hlight⟩ := light x.1 (numberedInstructions_eq h ▸ List.mem_map_of_mem hx)
    exact hlight.size_le x.2 o
  have hcount : (lines.filterMap Item.numberedInstruction?).length ≤ items.length := by
    rw [← List.length_map (·.1), numberedInstructions_eq h]
    exact List.length_filterMap_le _ _
  have hle := extent_le 0 hsizes
  rw [length_ofLines]
  omega

theorem exists_bytecode (h : List.Forall₂ (Item.Numbered q) items lines)
    (light : ∀ i ∈ items.filterMap Item.instruction?, ∃ n, i.Light n) : ∃ bytes, (ofLines lines).bytecode = .ok bytes := by
  cases hchunks : (ofLines lines).placed.mapM (Placed.bytes (ofLines lines)) with
  | ok chunks => exact ⟨chunks.flatten, by rw [bytecode, hchunks]; rfl⟩
  | error e =>
      obtain ⟨⟨o, i, k⟩, hplaced, he⟩ := exists_of_except_mapM_eq_error hchunks
      obtain ⟨n, hlight⟩ := light i (instructions_placed h ▸ List.mem_map_of_mem hplaced)
      obtain ⟨bs, hbs⟩ := hlight.exists_bytes (ofLines lines) o k
      rw [hbs] at he
      cases he

end Layout

namespace Code

/-- A body of light instructions is written if there is room for what they refer to. -/
theorem needs_written_of_light {c : Code} {ns : List Nat}
    (h : List.Forall₂ (fun x n => ∃ i, x = .instruction i ∧ i.Light n) c.items ns) (hne : c.items ≠ [])
    (hlength : 4 * c.items.length ≤ 65535) (hhandlers : c.handlers = []) (hattributes : c.attributes = []) :
    c.written.Needs ns.sum := by
  have hnumbered : (c.items.mapM Item.numbered).Needs ns.sum := by
    refine needs_mapM_sum (h.imp fun x n hx => ?_)
    obtain ⟨i, rfl, hlight⟩ := hx
    exact hlight.needs_numbered
  have light : ∀ i ∈ c.items.filterMap Item.instruction?, ∃ n, i.Light n := by
    intro i hi
    obtain ⟨x, hx, hi⟩ := List.mem_filterMap.mp hi
    obtain ⟨n, -, i', rfl, hlight⟩ := forall₂_mem_left h hx
    exact ⟨n, Option.some.inj hi ▸ hlight⟩
  rw [written]
  refine needs_bind_of_gives (n := 0) hnumbered fun q lines hlines => ?_
  -- From here on nothing is numbered, so it is done on every pool alike.
  have hlines := (gives_mapM.mp hlines).imp fun _ _ hline => Item.gives_numbered.mp hline
  have hle := Layout.length_ofLines_le hlines light
  have hzero : (Layout.ofLines lines).length ≠ 0 := by
    rw [ne_eq, Layout.length_eq_zero_iff hlines]
    obtain ⟨x, items, hitems⟩ := List.exists_cons_of_ne_nil hne
    obtain ⟨n, -, i, rfl, -⟩ := forall₂_mem_left h (hitems ▸ List.mem_cons_self)
    rw [hitems, Item.instructions_cons]
    exact List.cons_ne_nil _ _
  obtain ⟨bytecode, hbytecode⟩ := Layout.exists_bytecode hlines light
  have hlayout : (Layout.ofLines lines).checkLength = .ok (Layout.ofLines lines) :=
    checkLength_eq_ok.mpr ⟨rfl, by omega, hzero⟩
  refine needs_bind_of_gives (m := 0) (n := 0) (needs_lift hlayout) fun q layout hgives => ?_
  obtain rfl := Except.ok.inj (hlayout.symm.trans (gives_lift.mp hgives))
  rw [hhandlers, hattributes]
  refine needs_bind (m := 0) (n := 0) (needs_lift hbytecode) fun bytes => ?_
  refine needs_bind (m := 0) (n := 0) (needs_count _ (Nat.zero_le _)) fun count => ?_
  refine needs_bind (m := 0) (n := 0) (needs_pure []) fun handlers => ?_
  exact needs_bind (m := 0) (n := 0) (needs_zero fun p => Attribute.gives_tableBytes_nil p c.order) fun table =>
    needs_pure _

/-- The body without handlers and attributes is not too long for the attribute that holds it. -/
theorem length_written_le {c : Code} {q : Pool} {w : Written} (h : c.written.Gives q w) (hhandlers : c.handlers = [])
    (hattributes : c.attributes = []) : w.bytes.length ≤ 65547 := by
  obtain ⟨lines, bytecode, handlers, table, hlines, hlong, -, hbytecode, -, hchunks, htable, rfl⟩ :=
    gives_written.mp h
  obtain ⟨-, hlength, -⟩ := Layout.bodyBytes_of_bytecode (Item.numbered_of_lines hlines) hbytecode
  rw [hattributes] at htable
  obtain rfl := htable.unique (Attribute.gives_tableBytes_nil q c.order)
  rw [hhandlers] at hchunks
  cases hchunks
  simp only [assemble, Read.countBytes, List.length_append, Bytes.length_ofUInt16, Bytes.length_ofUInt32,
    List.flatten_nil, List.length_nil]
  omega

end Code

namespace Attribute

/-- A table of one attribute asks for its name. -/
theorem needs_tableBytes_singleton {a : Attribute} (hname : (Entry.utf8 a.name).Fits)
    (hlength : a.bytes.length ≤ maxLength) : (tableBytes [a] [] [] []).Needs 1 := by
  have hwritten : (written a).Needs 1 := by
    refine needs_bind (m := 1) (n := 0) (needs_text hname) fun i => ?_
    rw [if_pos hlength]
    exact needs_pure _
  have hnone : ∀ name, ofAnnotations name [] = pure [] := fun _ => rfl
  have horder : restoreOrder [] ([a] ++ [] ++ [] ++ []) = [a] := rfl
  rw [tableBytes, List.filter_nil, List.filter_nil, hnone, pure_bind, hnone, pure_bind, horder]
  refine needs_bind (m := 0) (n := 1) (needs_count _ (show 1 ≤ 65535 by decide)) fun n => ?_
  have hbodies : ([a].mapM written).Needs [1].sum := needs_mapM_sum (.cons hwritten .nil)
  exact needs_bind (m := 1) (n := 0) hbodies fun bodies => needs_pure _

end Attribute

end ClassFile
