import ClassFile.Accessor
import ClassFile.Proofs.Descriptor.Parts
import ClassFile.Proofs.Record.PlainMethods
import ClassFile.Proofs.Search
/-!
# Accessors run and last

An accessor is made of a descriptor, without a look at the class. The kind of the field decides its opcodes, its room on
the stack and among the local variables, and the descriptor of the method. That they belong together shows when the body
is run: §1 counts the slots on the stack as the machine does, by what each opcode is to do, and says which values move.
Accessors run to their end there, need exactly the room they ask for, and read or set their field (§2). They are plain
methods, and nothing but lack of room keeps them from being written (§3). So they can be added to a class, and are in its
file as they were (§4).
-/

namespace ClassFile

open Descriptor (JavaType MethodType)

/-! ## §1  Slots on the stack -/

/-- The kind of the values that are loaded, by opcode. -/
def Opcode.loaded? : Opcode → Option ValueKind
  | 21 => some .int
  | 22 => some .long
  | 23 => some .float
  | 24 => some .double
  | 25 => some .reference
  | _ => none

/-- The kind of the value that is returned, by opcode. -/
def Opcode.returned? : Opcode → Option ValueKind
  | 172 => some .int
  | 173 => some .long
  | 174 => some .float
  | 175 => some .double
  | 176 => some .reference
  | 177 => some .void
  | _ => none

/-- The kind of the values of a field, by its whole descriptor. -/
def Descriptor.fieldKind? (descriptor : String) : Option ValueKind :=
  match readFront descriptor.toList with
  | .ok (.type t, []) => some t.kind
  | _ => none

/-- A running method, as far as it takes room. -/
structure Frame where
  /-- The slots on the stack. -/
  depth : Nat
  /-- The most slots that were on the stack so far. -/
  peak : Nat
  /-- All local variables that were touched so far lie below. -/
  locals : Nat
deriving DecidableEq

namespace Frame

/-- Nothing has run yet. -/
def start : Frame := ⟨0, 0, 0⟩

def push (f : Frame) (slots : Nat) : Frame :=
  { f with depth := f.depth + slots, peak := max f.peak (f.depth + slots) }

/-- Slots taken from the stack; none if there are not as many. -/
def pop? (f : Frame) (slots : Nat) : Option Frame :=
  if slots ≤ f.depth then some { f with depth := f.depth - slots } else none

/-- The local variables from `index` on are touched. -/
def touch (f : Frame) (index slots : Nat) : Frame :=
  { f with locals := max f.locals (index + slots) }

/-- One instruction that does not return. Objects take one slot, values those of their kind. -/
def step? (f : Frame) : Instruction Label → Option Frame
  | .localVar op index => op.loaded?.map fun kind => (f.touch index.toNat kind.slots).push kind.slots
  | .field op member => do
      let kind ← Descriptor.fieldKind? member.descriptor
      if op = Opcode.getfield then return (← f.pop? 1).push kind.slots
      else if op = Opcode.putfield then f.pop? (1 + kind.slots)
      else none
  | _ => none

/-- Runs to the end, where a return has to stand with nothing but its value on the stack. -/
def run? (f : Frame) : List (Instruction Label) → Option (Frame × ValueKind)
  | [] => none
  | [.plain op] => do
      let kind ← op.returned?
      if f.depth = kind.slots then return (f, kind) else none
  | i :: rest => do (← f.step? i).run? rest

variable {f f' : Frame}

theorem run?_cons {i : Instruction Label} {rest : List (Instruction Label)} (h : f.step? i = some f')
    (hrest : rest ≠ []) : f.run? (i :: rest) = f'.run? rest := by
  obtain ⟨j, rest, rfl⟩ := List.exists_cons_of_ne_nil hrest
  rw [run?, h]
  · rfl
  · exact fun _ _ hnil => nomatch hnil

theorem run?_plain {op : Opcode} {kind : ValueKind} (hop : op.returned? = some kind) (hdepth : f.depth = kind.slots) :
    f.run? [.plain op] = some (f, kind) := by
  rw [run?, hop]
  exact if_pos hdepth

theorem step?_load {op : Opcode} {kind : ValueKind} (h : op.loaded? = some kind) (index : UInt16) :
    f.step? (.localVar op index) = some ((f.touch index.toNat kind.slots).push kind.slots) := by
  rw [step?, h]
  rfl

theorem step?_getfield {field : MemberRef} {kind : ValueKind}
    (h : Descriptor.fieldKind? field.descriptor = some kind) (hpop : f.pop? 1 = some f') :
    f.step? (.field Opcode.getfield field) = some (f'.push kind.slots) := by
  simp [step?, h, hpop]

theorem step?_putfield {field : MemberRef} {kind : ValueKind}
    (h : Descriptor.fieldKind? field.descriptor = some kind) :
    f.step? (.field Opcode.putfield field) = f.pop? (1 + kind.slots) := by
  rw [step?, h]
  rfl

end Frame

/-- A value in a running method, by where it comes from. -/
inductive Origin where
  /-- What the local variable held when the method was called. -/
  | argument (index : Nat)
  /-- What was read from a field of an object. -/
  | field (object : Origin) (member : MemberRef)

/-- A running method, as far as it moves values. -/
structure Effect where
  /-- The values on the stack, the topmost first. -/
  stack : List Origin
  /-- The fields that were set, in order: the object, the field, and its new value. -/
  stores : List (Origin × MemberRef × Origin)

namespace Effect

/-- Nothing has run yet. -/
def start : Effect := ⟨[], []⟩

/-- One instruction that does not return. -/
def step? (e : Effect) : Instruction Label → Option Effect
  | .localVar op index => op.loaded?.map fun _ => { e with stack := .argument index.toNat :: e.stack }
  | .field op member =>
      if op = Opcode.getfield then
        match e.stack with
        | object :: rest => some { e with stack := .field object member :: rest }
        | [] => none
      else if op = Opcode.putfield then
        match e.stack with
        | value :: object :: rest => some ⟨rest, e.stores ++ [(object, member, value)]⟩
        | _ => none
      else none
  | _ => none

/-- Runs to the end, where a return has to stand. -/
def run? (e : Effect) : List (Instruction Label) → Option Effect
  | [] => none
  | [.plain op] => op.returned?.map fun _ => e
  | i :: rest => do (← e.step? i).run? rest

end Effect

/-- What the body of the method does: a result is left on the stack. -/
def Method.effect? (m : Method) : Option Effect :=
  Effect.start.run? (m.items.filterMap Item.instruction?)

/-- The body of the method runs to its end on exactly the room that it asks for, and returns a value of the kind that
the descriptor says. -/
def Method.RunsExactly (m : Method) : Prop :=
  ∃ code instructions type frame, m.code = some code ∧ code.items = instructions.map .instruction ∧
    Descriptor.readMethod m.descriptor.toList = .ok type ∧
      Frame.start.run? instructions = some (frame, type.result.kind) ∧
        frame.peak = code.maxStack.toNat ∧ frame.locals = code.maxLocals.toNat

/-! ## §2  Accessors run -/

theorem Descriptor.JavaType.IsField.fieldKind? {t : JavaType} (h : t.IsField) :
    Descriptor.fieldKind? t.descriptor = some t.kind := by
  have hread := h.readable.readFront []
  rw [List.append_nil] at hread
  rw [Descriptor.fieldKind?, JavaType.descriptor, String.toList_ofList, hread]

namespace ValueKind

variable {k : ValueKind}

theorem exists_loadOpcode (h : k ≠ .void) : ∃ op, k.loadOpcode? = some op ∧ op.loaded? = some k ∧ op.isLocal = true := by
  cases k with
  | void => exact absurd rfl h
  | _ => exact ⟨_, rfl, rfl, rfl⟩

theorem isPlain_returnOpcode (k : ValueKind) : k.returnOpcode.isPlain = true := by
  cases k <;> rfl

theorem returned?_returnOpcode (k : ValueKind) : k.returnOpcode.returned? = some k := by
  cases k <;> rfl

theorem slots_pos (h : k ≠ .void) : 1 ≤ k.slots := by
  cases k with
  | void => exact absurd rfl h
  | _ => decide

end ValueKind

/-- The last line is found if it is what is searched for. -/
theorem Found.lastOf_concat {p : Instruction Label → Bool} {i : Instruction Label} (h : p i = true) (items : List Item)
    (n : Nat) (best : Option Found) : lastOf p n best (items ++ [.instruction i]) = some ⟨n + items.length, i⟩ := by
  rw [lastOf_append, lastOf, if_pos h, lastOf]

theorem Method.findLastOpcode_concat {m : Method} {items : List Item} (op : Opcode)
    (h : m.items = items ++ [.instruction (.plain op)]) : m.findLastOpcode op = some ⟨items.length, .plain op⟩ := by
  rw [findLastOpcode, findLast, h, Found.lastOf_concat (beq_self_eq_true op), Nat.zero_add]

namespace Accessor

variable {t : JavaType}

/-- The method that reads a field of the type. -/
def getterOf (t : JavaType) (name : String) (field : MemberRef) (access : Access) : Method :=
  { Method.bare access name (MethodType.descriptor ⟨[], t⟩) with
    code := some (body t.kind.slots 1 [loadThis, .field Opcode.getfield field, .plain t.kind.returnOpcode]) }

/-- The method that sets a field of the type. -/
def setterOf (t : JavaType) (name : String) (field : MemberRef) (access : Access) : Method :=
  { Method.bare access name (MethodType.descriptor ⟨[t], .void⟩) with
    code := some (body (1 + t.kind.slots) (1 + t.kind.slots)
      (loadThis :: (t.kind.loadOpcode?.map fun op => Instruction.localVar op 1).toList ++
        [.field Opcode.putfield field, .plain Opcode.voidReturn])) }

theorem descriptor_getter (t : JavaType) : MethodType.descriptor ⟨[], t⟩ = "()" ++ t.descriptor := by
  simp [← String.toList_inj, JavaType.descriptor, MethodType.descriptor, MethodType.text]

theorem descriptor_setter (t : JavaType) : MethodType.descriptor ⟨[t], .void⟩ = "(" ++ t.descriptor ++ ")V" := by
  simp [← String.toList_inj, JavaType.descriptor, MethodType.descriptor, MethodType.text, JavaType.void,
    JavaType.text, Descriptor.Element.text, Descriptor.Base.letter]

theorem getter_eq (h : t.IsField) (name owner field : String) (access : Access) :
    getter name ⟨owner, field, t.descriptor⟩ access = .ok (getterOf t name ⟨owner, field, t.descriptor⟩ access) := by
  rw [getter, ValueKind.ofField_descriptor h, ← descriptor_getter]
  rfl

theorem setter_eq (h : t.IsField) (name owner field : String) (access : Access) :
    setter name ⟨owner, field, t.descriptor⟩ access = .ok (setterOf t name ⟨owner, field, t.descriptor⟩ access) := by
  rw [setter, ValueKind.ofField_descriptor h, ← descriptor_setter]
  rfl

/-- A getter takes the object from the stack and leaves the value there. -/
theorem run?_getter {kind : ValueKind} (hkind : kind ≠ .void) {field : MemberRef}
    (hfield : Descriptor.fieldKind? field.descriptor = some kind) :
    Frame.start.run? [loadThis, .field Opcode.getfield field, .plain kind.returnOpcode] =
      some (⟨kind.slots, kind.slots, 1⟩, kind) := by
  have hpos := ValueKind.slots_pos hkind
  have hthis : Frame.start.step? loadThis = some ⟨1, 1, 1⟩ := rfl
  have hobject : Frame.pop? ⟨1, 1, 1⟩ 1 = some ⟨0, 1, 1⟩ := rfl
  have hvalue : Frame.push ⟨0, 1, 1⟩ kind.slots = ⟨kind.slots, kind.slots, 1⟩ := by
    rw [Frame.push, Nat.zero_add, Nat.max_eq_right hpos]
  rw [Frame.run?_cons hthis (by simp), Frame.run?_cons (Frame.step?_getfield hfield hobject) (by simp), hvalue]
  exact Frame.run?_plain (ValueKind.returned?_returnOpcode kind) rfl

/-- A setter takes the object and the value from the stack and leaves nothing. -/
theorem run?_setter {kind : ValueKind} {op : Opcode} (hop : op.loaded? = some kind) {field : MemberRef}
    (hfield : Descriptor.fieldKind? field.descriptor = some kind) :
    Frame.start.run? [loadThis, .localVar op 1, .field Opcode.putfield field, .plain Opcode.voidReturn] =
      some (⟨0, 1 + kind.slots, 1 + kind.slots⟩, .void) := by
  have hthis : Frame.start.step? loadThis = some ⟨1, 1, 1⟩ := rfl
  have hvalue : Frame.step? ⟨1, 1, 1⟩ (.localVar op 1) = some ⟨1 + kind.slots, 1 + kind.slots, 1 + kind.slots⟩ := by
    have hmax : max 1 (1 + kind.slots) = 1 + kind.slots := Nat.max_eq_right (Nat.le_add_right 1 _)
    rw [Frame.step?_load hop, Frame.push, Frame.touch, show (1 : UInt16).toNat = 1 from rfl, hmax]
  have hput : Frame.step? ⟨1 + kind.slots, 1 + kind.slots, 1 + kind.slots⟩ (.field Opcode.putfield field) =
      some ⟨0, 1 + kind.slots, 1 + kind.slots⟩ := by
    rw [Frame.step?_putfield hfield, Frame.pop?, if_pos (Nat.le_refl _), Nat.sub_self]
  rw [Frame.run?_cons hthis (by simp), Frame.run?_cons hvalue (by simp), Frame.run?_cons hput (by simp)]
  exact Frame.run?_plain rfl rfl

theorem getterOf_runsExactly (h : t.IsField) (name owner field : String) (access : Access) :
    (getterOf t name ⟨owner, field, t.descriptor⟩ access).RunsExactly := by
  have hread := h.wellFormed_result.readMethod_descriptor
  have hslots : (UInt16.ofNat t.kind.slots).toNat = t.kind.slots := by
    cases t.kind <;> rfl
  exact ⟨_, _, _, _, rfl, rfl, hread, run?_getter h.kind_ne h.fieldKind?, hslots.symm, rfl⟩

theorem setterOf_runsExactly (h : t.IsField) (name owner field : String) (access : Access) :
    (setterOf t name ⟨owner, field, t.descriptor⟩ access).RunsExactly := by
  have hread := h.wellFormed_parameter.readMethod_descriptor
  have hslots : (UInt16.ofNat (1 + t.kind.slots)).toNat = 1 + t.kind.slots := by
    cases t.kind <;> rfl
  obtain ⟨op, hload, hop, -⟩ := ValueKind.exists_loadOpcode h.kind_ne
  refine ⟨_, _, _, ⟨0, 1 + t.kind.slots, 1 + t.kind.slots⟩, rfl, rfl, hread, ?_, hslots.symm, hslots.symm⟩
  rw [hload]
  exact run?_setter hop h.fieldKind?

/-- A getter returns the field of the object that it is called on. -/
theorem effect?_getterOf (t : JavaType) (name : String) (field : MemberRef) (access : Access) :
    (getterOf t name field access).effect? = some ⟨[.field (.argument 0) field], []⟩ := by
  have hreturn := ValueKind.returned?_returnOpcode t.kind
  show Option.map _ t.kind.returnOpcode.returned? = _
  rw [hreturn]
  rfl

theorem items_setterOf (h : t.IsField) (name : String) (field : MemberRef) (access : Access) :
    ∃ op, op.loaded? = some t.kind ∧ op.isLocal = true ∧ (setterOf t name field access).items =
      [.instruction loadThis, .instruction (.localVar op 1), .instruction (.field Opcode.putfield field)] ++
        [.instruction (.plain Opcode.voidReturn)] := by
  obtain ⟨op, hload, hop, hlocal⟩ := ValueKind.exists_loadOpcode h.kind_ne
  refine ⟨op, hop, hlocal, ?_⟩
  rw [setterOf, hload]
  rfl

/-- A setter sets the field of the object that it is called on to its argument. -/
theorem effect?_setterOf (h : t.IsField) (name : String) (field : MemberRef) (access : Access) :
    (setterOf t name field access).effect? = some ⟨[], [(.argument 0, field, .argument 1)]⟩ := by
  obtain ⟨op, hop, -, hitems⟩ := items_setterOf h name field access
  have hargument : Effect.step? ⟨[.argument 0], []⟩ (.localVar op 1) = some ⟨[.argument 1, .argument 0], []⟩ := by
    rw [Effect.step?, hop]
    rfl
  rw [Method.effect?, hitems]
  show (Effect.step? ⟨[.argument 0], []⟩ (.localVar op 1)).bind _ = _
  rw [hargument]
  rfl

/-- The search for the return of a method finds the last line of an accessor. -/
theorem findLastReturn_getterOf (h : t.IsField) (name : String) (field : MemberRef) (access : Access) :
    (getterOf t name field access).findLastReturn = .ok (some ⟨2, .plain t.kind.returnOpcode⟩) := by
  have hreturn : ValueKind.ofReturn (getterOf t name field access).descriptor = .ok t.kind :=
    ValueKind.ofReturn_descriptor h.wellFormed_result
  have hitems : (getterOf t name field access).items = [.instruction loadThis,
      .instruction (.field Opcode.getfield field)] ++ [.instruction (.plain t.kind.returnOpcode)] := rfl
  rw [Method.findLastReturn, hreturn]
  exact congrArg Except.ok (Method.findLastOpcode_concat _ hitems)

theorem findLastReturn_setterOf (h : t.IsField) (name : String) (field : MemberRef) (access : Access) :
    (setterOf t name field access).findLastReturn = .ok (some ⟨3, .plain Opcode.voidReturn⟩) := by
  have hreturn : ValueKind.ofReturn (setterOf t name field access).descriptor = .ok .void :=
    ValueKind.ofReturn_descriptor h.wellFormed_parameter
  obtain ⟨op, -, -, hitems⟩ := items_setterOf h name field access
  rw [Method.findLastReturn, hreturn]
  exact congrArg Except.ok (Method.findLastOpcode_concat _ hitems)

/-! ## §3  Accessors written -/

theorem straight_body (maxStack maxLocals : Nat) {instructions : List (Instruction Label)}
    (h : ∀ i ∈ instructions, i.Straight) : (body maxStack maxLocals instructions).Straight := by
  refine ⟨fun x hx => ?_, rfl, rfl, rfl⟩
  obtain ⟨i, hi, rfl⟩ := List.mem_map.mp hx
  exact ⟨i, rfl, h i hi⟩

theorem plain_getterOf (t : JavaType) (name : String) (field : MemberRef) (access : Access) :
    (getterOf t name field access).Plain := by
  refine ⟨⟨_, rfl, straight_body _ _ fun i hi => ?_⟩, rfl, rfl, rfl⟩
  simp only [List.mem_cons, List.not_mem_nil, or_false] at hi
  obtain rfl | rfl | rfl := hi
  · exact ⟨rfl, nofun⟩
  · exact ⟨rfl, nofun⟩
  · exact ⟨rfl, nofun⟩

theorem plain_setterOf (t : JavaType) (name : String) (field : MemberRef) (access : Access) :
    (setterOf t name field access).Plain := by
  refine ⟨⟨_, rfl, straight_body _ _ fun i hi => ?_⟩, rfl, rfl, rfl⟩
  simp only [List.cons_append, List.mem_cons, List.mem_append, Option.mem_toList, Option.map_eq_some_iff,
    List.not_mem_nil, or_false] at hi
  obtain rfl | ⟨op, -, rfl⟩ | rfl | rfl := hi
  · exact ⟨rfl, nofun⟩
  · exact ⟨rfl, nofun⟩
  · exact ⟨rfl, nofun⟩
  · exact ⟨rfl, nofun⟩

/-- The name and the descriptor of the method and the names on its lines that refer to fields are short enough to be
written. -/
structure TextsFit (m : Method) : Prop where
  name : (Entry.utf8 m.name).Fits
  descriptor : (Entry.utf8 m.descriptor).Fits
  fields : ∀ op field, .instruction (.field op field) ∈ m.items →
    (Entry.utf8 field.owner).Fits ∧ (Entry.utf8 field.name).Fits ∧ (Entry.utf8 field.descriptor).Fits

theorem textsFit_getterOf {name : String} {field : MemberRef} {access : Access} (hname : (Entry.utf8 name).Fits)
    (hdescriptor : (Entry.utf8 (MethodType.descriptor ⟨[], t⟩)).Fits)
    (hfield : (Entry.utf8 field.owner).Fits ∧ (Entry.utf8 field.name).Fits ∧ (Entry.utf8 field.descriptor).Fits) :
    TextsFit (getterOf t name field access) := by
  refine ⟨hname, hdescriptor, fun op other hmem => ?_⟩
  obtain ⟨-, rfl⟩ : op = Opcode.getfield ∧ other = field := by
    simpa [getterOf, Method.items, body, loadThis] using hmem
  exact hfield

theorem textsFit_setterOf (h : t.IsField) {name : String} {field : MemberRef} {access : Access}
    (hname : (Entry.utf8 name).Fits) (hdescriptor : (Entry.utf8 (MethodType.descriptor ⟨[t], .void⟩)).Fits)
    (hfield : (Entry.utf8 field.owner).Fits ∧ (Entry.utf8 field.name).Fits ∧ (Entry.utf8 field.descriptor).Fits) :
    TextsFit (setterOf t name field access) := by
  obtain ⟨op, -, -, hitems⟩ := items_setterOf h name field access
  refine ⟨hname, hdescriptor, fun op other hmem => ?_⟩
  rw [hitems] at hmem
  obtain ⟨-, rfl⟩ : op = Opcode.putfield ∧ other = field := by simpa [loadThis] using hmem
  exact hfield

/-- A getter asks for nine slots at most: its name and its descriptor, six for the field, and the name of its body. -/
theorem needs_getterOf {name : String} {field : MemberRef} {access : Access}
    (fit : TextsFit (getterOf t name field access)) : (getterOf t name field access).written.Needs 9 := by
  obtain ⟨howner, hfield, htype⟩ := fit.fields Opcode.getfield field (by simp [getterOf, Method.items, body])
  refine (plain_getterOf t name field access).needs_written [0, 6, 0] rfl fit.name fit.descriptor ?_
    (List.cons_ne_nil _ _) (show 12 ≤ 65535 by decide)
  refine .cons ⟨_, rfl, .localVar rfl 0⟩ (.cons ⟨_, rfl, .field rfl howner hfield htype⟩ (.cons ⟨_, rfl, .plain ?_⟩ .nil))
  exact ValueKind.isPlain_returnOpcode t.kind

theorem needs_setterOf (h : t.IsField) {name : String} {field : MemberRef} {access : Access}
    (fit : TextsFit (setterOf t name field access)) : (setterOf t name field access).written.Needs 9 := by
  obtain ⟨op, -, hop, hitems⟩ := items_setterOf h name field access
  obtain ⟨howner, hfield, htype⟩ := fit.fields Opcode.putfield field (by simp [hitems])
  refine (plain_setterOf t name field access).needs_written [0, 0, 6, 0] rfl fit.name fit.descriptor ?_ ?_ ?_
  · rw [hitems]
    exact .cons ⟨_, rfl, .localVar rfl 0⟩ (.cons ⟨_, rfl, .localVar hop 1⟩
      (.cons ⟨_, rfl, .field rfl howner hfield htype⟩ (.cons ⟨_, rfl, .plain rfl⟩ .nil)))
  · rw [hitems]
    exact List.cons_ne_nil _ _
  · rw [hitems]
    show 16 ≤ 65535
    decide

/-! ## §4  Accessors last -/

/-- What holds of an accessor that is to be added to a class: it runs, and its last line is the return that is searched
for. It comes back as it was from every class that it is written with, and it is written with every class that has room
for it: in a pool that holds already what the class needs, nine more slots do. -/
structure Sound (m : Method) : Prop where
  runs : m.RunsExactly
  returns : ∃ found, m.findLastReturn = .ok (some found) ∧ found.index + 1 = m.items.length
  kept : ∀ c : Record, versionSupported c.major = true → c.pool.Reachable → c.pool.TextsFit → c.Raw →
    c.PooledBacked → c.method? m.name m.descriptor = none →
      ∃ c', c.addMethod? m = some c' ∧ ∀ s, c'.serialize = .ok s →
        ∃ r, Record.parse s = .ok r ∧ c'.ReadAs r ∧
          r.method? m.name m.descriptor = some { m with order := [Attribute.code] }
  written : ∀ (c c' : Record) (d : Pieces), c.addMethod? m = some c' → TextsFit m → c.GivenAs c.pool d →
    c.methods.length < 65535 → c.pool.size + 9 ≤ Pool.maxSlots → ∃ s, c'.serialize = .ok s

theorem sound_of_plain {m : Method} (plain : m.Plain) (needs : TextsFit m → m.written.Needs 9) (runs : m.RunsExactly)
    (returns : ∃ found, m.findLastReturn = .ok (some found) ∧ found.index + 1 = m.items.length) : Sound m where
  runs := runs
  returns := returns
  kept c version reachable fit raw backed hnew := by
    refine ⟨{ c with methods := c.methods ++ [m] }, ?_, fun s hs => ?_⟩
    · rw [Record.addMethod?, hnew]
    · exact Record.parse_serialize_concat version reachable fit raw backed plain hnew hs
  written c c' d hadd fit hd hmethods room := by
    obtain ⟨w, q, hw, -⟩ := needs fit c.pool room
    obtain rfl := Record.addMethod?_eq_some hadd
    exact Record.exists_serialize_of_written hd hmethods hw

/-- What is sound and fits is added to a class that has room, is written with it, and comes back. -/
theorem Sound.exists_added {m : Method} (sound : Sound m) (texts : TextsFit m) {c : Record} {d : Pieces}
    (version : versionSupported c.major = true) (reachable : c.pool.Reachable) (fit : c.pool.TextsFit) (raw : c.Raw)
    (backed : c.PooledBacked) (hd : c.GivenAs c.pool d) (hnew : c.method? m.name m.descriptor = none)
    (hmethods : c.methods.length < 65535) (room : c.pool.size + 9 ≤ Pool.maxSlots) :
    ∃ c' s r, c.addMethod? m = some c' ∧ c'.serialize = .ok s ∧ Record.parse s = .ok r ∧ c'.ReadAs r ∧
      r.method? m.name m.descriptor = some { m with order := [Attribute.code] } := by
  obtain ⟨c', hadd, hkept⟩ := sound.kept c version reachable fit raw backed hnew
  obtain ⟨s, hs⟩ := sound.written c c' d hadd texts hd hmethods room
  obtain ⟨r, hr, hreadAs, hfound⟩ := hkept s hs
  exact ⟨c', s, r, hadd, hs, hr, hreadAs, hfound⟩

/-- **Accessors run and last.** For a field of any type there are a getter and a setter. They have the name, the access
and the descriptor that they are to have. The getter returns the field of the object it is called on, the setter sets that
field to its argument and does nothing else, and both are sound. -/
theorem exists_sound (h : t.IsField) (name owner field : String) (access : Access) :
    ∃ get set, getter name ⟨owner, field, t.descriptor⟩ access = .ok get ∧
      setter name ⟨owner, field, t.descriptor⟩ access = .ok set ∧
        (get.access = access ∧ get.name = name ∧ get.descriptor = "()" ++ t.descriptor) ∧
          (set.access = access ∧ set.name = name ∧ set.descriptor = "(" ++ t.descriptor ++ ")V") ∧
            get.effect? = some ⟨[.field (.argument 0) ⟨owner, field, t.descriptor⟩], []⟩ ∧
              set.effect? = some ⟨[], [(.argument 0, ⟨owner, field, t.descriptor⟩, .argument 1)]⟩ ∧
                Sound get ∧ Sound set := by
  let member : MemberRef := ⟨owner, field, t.descriptor⟩
  obtain ⟨op, -, -, hitems⟩ := items_setterOf h name member access
  refine ⟨getterOf t name member access, setterOf t name member access, getter_eq h name owner field access,
    setter_eq h name owner field access, ⟨rfl, rfl, descriptor_getter t⟩, ⟨rfl, rfl, descriptor_setter t⟩,
    effect?_getterOf t name member access, effect?_setterOf h name member access, ?_, ?_⟩
  · exact sound_of_plain (plain_getterOf t name member access) needs_getterOf
      (getterOf_runsExactly h name owner field access) ⟨_, findLastReturn_getterOf h name member access, rfl⟩
  · refine sound_of_plain (plain_setterOf t name member access) (needs_setterOf h)
      (setterOf_runsExactly h name owner field access) ⟨_, findLastReturn_setterOf h name member access, ?_⟩
    rw [hitems]
    rfl

/-- A field of the sample's class that holds an array of objects. The name of their class has a parenthesis in it. -/
def sampleField : MemberRef := ⟨"A", "f", "[La/)b;"⟩

/-- The sample file with a getter for that field, and with a setter. -/
theorem exists_sound_sampleFile : ∃ (get set : Method) (c : Record),
    getter "g" sampleField ⟨1⟩ = .ok get ∧ setter "g" sampleField ⟨1⟩ = .ok set ∧
      get.effect? = some ⟨[.field (.argument 0) sampleField], []⟩ ∧
        set.effect? = some ⟨[], [(.argument 0, sampleField, .argument 1)]⟩ ∧ c.serialize = .ok sampleFile ∧
          ∀ m ∈ [get, set], Sound m ∧ ∃ c' s r, c.addMethod? m = some c' ∧ c'.serialize = .ok s ∧
            Record.parse s = .ok r ∧ c'.ReadAs r ∧
              r.method? m.name m.descriptor = some { m with order := [Attribute.code] } := by
  let t : JavaType := ⟨1, .object "a/)b".toList⟩
  have ht : t.IsField := by decide +kernel
  have htext : t.descriptor = "[La/)b;" := by decide +kernel
  obtain ⟨get, set, hget, hset, ⟨-, hgetName, hgetType⟩, ⟨-, hsetName, hsetType⟩, hreads, hstores, hgetSound, hsetSound⟩ :=
    exists_sound ht "g" "A" "f" ⟨1⟩
  have hgetter := Except.ok.inj (hget.symm.trans (getter_eq ht "g" "A" "f" ⟨1⟩))
  have hsetter := Except.ok.inj (hset.symm.trans (setter_eq ht "g" "A" "f" ⟨1⟩))
  rw [htext] at hget hset hgetType hsetType hgetter hsetter hreads hstores
  change get = getterOf t "g" sampleField ⟨1⟩ at hgetter
  change set = setterOf t "g" sampleField ⟨1⟩ at hsetter
  have htexts : (Entry.utf8 "g").Fits ∧ (Entry.utf8 (MethodType.descriptor ⟨[], t⟩)).Fits ∧
      (Entry.utf8 (MethodType.descriptor ⟨[t], .void⟩)).Fits ∧ (Entry.utf8 "A").Fits ∧ (Entry.utf8 "f").Fits ∧
        (Entry.utf8 "[La/)b;").Fits := by
    unfold Entry.Fits
    decide +kernel
  obtain ⟨hname, hgetText, hsetText, hfield⟩ := htexts
  have hgetFit : TextsFit get := hgetter ▸ textsFit_getterOf hname hgetText hfield
  have hsetFit : TextsFit set := hsetter ▸ textsFit_setterOf ht hname hsetText hfield
  obtain ⟨c, hc, version, reachable, fit, raw, backed, hs⟩ := Record.writable_sampleFile
  obtain ⟨c₀, d, hc₀, -, hd, -⟩ := Record.read_of_serialize version reachable.wellFormed fit raw backed hs
  obtain rfl := Except.ok.inj (hc.symm.trans hc₀)
  have hsmall : (Record.parse sampleFile).toOption.any (fun c => decide (c.methods.length < 65535) &&
      decide (c.pool.size + 9 ≤ Pool.maxSlots) && (c.method? "g" "()[La/)b;").isNone &&
        (c.method? "g" "([La/)b;)V").isNone) = true := by
    decide +kernel
  rw [hc] at hsmall
  obtain ⟨⟨⟨hmethods, hroom⟩, hnoGetter⟩, hnoSetter⟩ : ((c.methods.length < 65535 ∧ c.pool.size + 9 ≤ Pool.maxSlots) ∧
      c.method? "g" "()[La/)b;" = none) ∧ c.method? "g" "([La/)b;)V" = none := by
    simpa [Except.toOption] using hsmall
  have hadded {m : Method} (sound : Sound m) (texts : TextsFit m) (hnew : c.method? m.name m.descriptor = none) :=
    sound.exists_added texts version reachable fit raw backed hd hnew hmethods hroom
  refine ⟨get, set, c, hget, hset, hreads, hstores, hs, ?_⟩
  simp only [List.forall_mem_cons, List.not_mem_nil, false_implies, implies_true, and_true]
  refine ⟨⟨hgetSound, hadded hgetSound hgetFit ?_⟩, hsetSound, hadded hsetSound hsetFit ?_⟩
  · rw [hgetName, hgetType]
    exact hnoGetter
  · rw [hsetName, hsetType]
    exact hnoSetter

end Accessor

end ClassFile
