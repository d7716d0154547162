import ClassFile.Proofs.Naming.Lookups
import ClassFile.Proofs.Reading
import ClassFile.Search
/-!
# Searching renamed code

Code whose names were replaced calls the same methods at the same places. A search takes the method in canonical names
and asks a translator for the name it has here, so that it can be asked the same of the code before and after. The
answer is the same line if the renaming keeps the methods apart that are compared (§2), which is less than keeping all
methods apart: the search only compares what is called with what is looked for (§3).
-/

namespace ClassFile

open Names (internal)
open Naming (Entries SlashedClasses Table Translator classNames renamed)

/-! ## §1  Renaming the calls of a body -/

namespace Instruction

/-- The method that is called. -/
def callee? : Instruction Label → Option MemberRef
  | .call _ m _ => some m
  | _ => none

/-- The instruction with another method called in place of the one it calls. -/
def mapCallee (f : MemberRef → MemberRef) : Instruction Label → Instruction Label
  | .call op m isInterface => .call op (f m) isInterface
  | i => i

/-- The instruction with the method it calls under its runtime names. -/
def translated (names : Translator) : Instruction Label → Except Error (Instruction Label)
  | .call op m isInterface => (names.runtimeMethod m).map fun m => .call op m isInterface
  | i => .ok i

theorem translated_eq_ok {names : Translator} {f : MemberRef → MemberRef} {i : Instruction Label}
    (h : ∀ m ∈ i.callee?, names.runtimeMethod m = .ok (f m)) : i.translated names = .ok (i.mapCallee f) := by
  cases i with
  | call op m isInterface =>
      rw [translated, h m rfl]
      rfl
  | _ => rfl

end Instruction

namespace Item

/-- The item with its instruction replaced. -/
def mapInstruction (g : Instruction Label → Instruction Label) : Item → Item
  | .label l => .label l
  | .instruction i => .instruction (g i)

def translated (names : Translator) : Item → Except Error Item
  | .label l => .ok (.label l)
  | .instruction i => (i.translated names).map .instruction

end Item

namespace Method

/-- The method with the methods it calls under their runtime names. -/
def translated (names : Translator) (m : Method) : Except Error Method :=
  match m.code with
  | none => .ok m
  | some c => (c.items.mapM (Item.translated names)).map fun items => { m with code := some { c with items } }

/-- The methods that are called. -/
def calls (m : Method) : List MemberRef :=
  (m.items.filterMap Item.instruction?).filterMap Instruction.callee?

theorem mem_calls {m : Method} {i : Instruction Label} (hi : .instruction i ∈ m.items) {c : MemberRef}
    (hc : c ∈ i.callee?) : c ∈ m.calls :=
  List.mem_filterMap.mpr ⟨i, List.mem_filterMap.mpr ⟨_, hi, rfl⟩, hc⟩

/-- If the translator has an answer for all methods that are called, it has one for the whole body. -/
theorem exists_translated {names : Translator} {f : MemberRef → MemberRef} {m : Method}
    (h : ∀ c ∈ m.calls, names.runtimeMethod c = .ok (f c)) :
    ∃ m', m.translated names = .ok m' ∧
      m'.items = m.items.map (Item.mapInstruction (Instruction.mapCallee f)) := by
  rw [translated]
  cases hcode : m.code with
  | none => exact ⟨m, rfl, by rw [items, hcode]; rfl⟩
  | some c =>
      have hitems : m.items = c.items := by rw [items, hcode]; rfl
      have hmapM : c.items.mapM (Item.translated names) =
          .ok (c.items.map (Item.mapInstruction (Instruction.mapCallee f))) := by
        rw [except_mapM_eq_ok, List.forall₂_map_right_iff, List.forall₂_same]
        intro item hitem
        cases item with
        | label l => rfl
        | instruction i =>
            rw [Item.translated, Instruction.translated_eq_ok fun r hr => h r (mem_calls (hitems ▸ hitem) hr)]
            rfl
      refine ⟨_, except_map_eq_ok.mpr ⟨_, hmapM, rfl⟩, ?_⟩
      rw [hitems]
      rfl

end Method

/-- A search among replaced instructions finds the same line, if it is looked for in them what was looked for before. -/
theorem Found.index_lastOf_map {p p' : Instruction Label → Bool} {g : Instruction Label → Instruction Label}
    {items : List Item} (h : ∀ i, .instruction i ∈ items → p' (g i) = p i) (n : Nat) {best best' : Option Found}
    (hbest : best'.map Found.index = best.map Found.index) :
    (lastOf p' n best' (items.map (Item.mapInstruction g))).map Found.index =
      (lastOf p n best items).map Found.index := by
  induction items generalizing n best best' with
  | nil => exact hbest
  | cons item items ih =>
      have hrest : ∀ i, .instruction i ∈ items → p' (g i) = p i := fun i hi => h i (List.mem_cons_of_mem item hi)
      cases item with
      | label l => exact ih hrest (n + 1) hbest
      | instruction i =>
          refine ih hrest (n + 1) ?_
          rw [h i List.mem_cons_self]
          split
          · rfl
          · exact hbest

/-! ## §2  Renamings that keep methods apart -/

namespace Naming

/-- The method under the names of the table. -/
def Table.renamedMethod (t : Table) (m : MemberRef) : MemberRef :=
  ⟨t.runtimeClass m.owner, t.runtimeMethod m, renamed t.runtimeClass m.descriptor⟩

theorem Table.runtimeMethod_of_slashed (e : Entries) {m : MemberRef} (howner : internal m.owner = m.owner)
    (hdescriptor : SlashedClasses m.descriptor) :
    (ofEntries e).translator.runtimeMethod m = .ok ((ofEntries e).renamedMethod m) := by
  obtain ⟨owner, name, descriptor⟩ := m
  have howner : internal owner = owner := howner
  rw [translator_runtimeMethod e hdescriptor, howner]
  rfl

/-- Under the names of the table the methods can be told apart: their classes have different names, methods of the same
class and with the same descriptor have different names too, and the end of a class name can be seen in a descriptor. -/
structure Entries.KeepsApart (e : Entries) (methods : List MemberRef) : Prop where
  semicolon : ∀ c ∈ e.classes.toList, ';' ∉ c.2.toList
  classes : Set.InjOn (Table.ofEntries e).runtimeClass
    {n | n ∈ methods.flatMap fun m => m.owner :: classNames m.descriptor}
  names : ∀ m ∈ methods, ∀ m' ∈ methods, m.owner = m'.owner → m.descriptor = m'.descriptor →
    (Table.ofEntries e).runtimeMethod m = (Table.ofEntries e).runtimeMethod m' → m.name = m'.name

theorem Entries.KeepsApart.injOn {e : Entries} {methods : List MemberRef} (h : e.KeepsApart methods) :
    Set.InjOn (Table.ofEntries e).renamedMethod {m | m ∈ methods} := by
  intro m hm m' hm' heq
  obtain ⟨howners, hnames, hdescriptors⟩ := MemberRef.mk.inj heq
  have hmem : ∀ m ∈ methods, ∀ n ∈ m.owner :: classNames m.descriptor,
      n ∈ methods.flatMap fun m => m.owner :: classNames m.descriptor :=
    fun m hm n hn => List.mem_flatMap.mpr ⟨m, hm, hn⟩
  have howner : m.owner = m'.owner :=
    h.classes (hmem m hm _ List.mem_cons_self) (hmem m' hm' _ List.mem_cons_self) howners
  have hdescriptor : m.descriptor = m'.descriptor := by
    refine eq_of_renamed_eq (fun n hn => ?_) (h.classes.mono fun n hn => ?_) hdescriptors
    · rcases hn with hn | hn
      · exact Table.semicolon_runtimeClass h.semicolon (semicolon_of_mem_classNames hn)
      · exact Table.semicolon_runtimeClass h.semicolon (semicolon_of_mem_classNames hn)
    · rcases hn with hn | hn
      · exact hmem m hm _ (List.mem_cons_of_mem _ hn)
      · exact hmem m' hm' _ (List.mem_cons_of_mem _ hn)
  have hname : m.name = m'.name := h.names m hm m' hm' howner hdescriptor hnames
  cases m
  cases m'
  simp_all only

end Naming

/-! ## §3  The same call -/

namespace Method

/-- The methods that are compared when a call is looked for: the one of the query, and those that are called. -/
def compared (m : Method) (q : CallQuery) : List MemberRef :=
  (q.method?.map fun r => { r with owner := internal r.owner }).toList ++ m.calls

theorem isAnsweredBy_call {q : CallQuery} (h : q.allowGivenOwner = false) {target : MemberRef} {op : Opcode}
    {m : MemberRef} {isInterface : Bool} :
    q.isAnsweredBy target (.call op m isInterface) = true ↔ op = q.opcode ∧ m = target := by
  rw [CallQuery.isAnsweredBy, h, Bool.false_and, Bool.or_false]
  obtain ⟨owner, name, descriptor⟩ := m
  obtain ⟨owner', name', descriptor'⟩ := target
  simp only [Bool.and_eq_true, beq_iff_eq, MemberRef.mk.injEq]
  tauto

theorem findLastCall_of_target {names : Translator} {q : CallQuery} {r target : MemberRef} (m : Method)
    (hmethod : q.method? = some r) (htarget : names.runtimeMethod r = .ok target) :
    m.findLastCall names q = .ok (m.findLast (q.isAnsweredBy target)) := by
  rw [findLastCall, hmethod]
  simp only [htarget]
  rfl

/-- The one query asks for the same of renamed calls as the other of the calls. -/
theorem isAnsweredBy_mapCallee {q : CallQuery} (h : q.allowGivenOwner = false) {f : MemberRef → MemberRef}
    {methods : List MemberRef} (injOn : Set.InjOn f {m | m ∈ methods}) {target : MemberRef}
    (htarget : target ∈ methods) {i : Instruction Label} (hi : ∀ m ∈ i.callee?, m ∈ methods) :
    q.isAnsweredBy (f target) (i.mapCallee f) = q.isAnsweredBy target i := by
  cases i with
  | call op m isInterface =>
      have hiff : f m = f target ↔ m = target := injOn.eq_iff (hi m rfl) htarget
      rw [Instruction.mapCallee, Bool.eq_iff_iff, isAnsweredBy_call h, isAnsweredBy_call h, hiff]
  | _ => rfl

/-- **The same call.** Let a table keep apart the methods that are compared, all of them spelled with slashes but for
the owner of the query. Then the table has names for all calls, and the search finds the same line in renamed code as in
the code itself, or neither finds one. -/
theorem findLastCall_translated {e : Entries} {m : Method} {q : CallQuery} (apart : e.KeepsApart (m.compared q))
    (calls : ∀ c ∈ m.calls, internal c.owner = c.owner ∧ SlashedClasses c.descriptor)
    (query : ∀ r ∈ q.method?, SlashedClasses r.descriptor) (given : q.allowGivenOwner = false) :
    ∃ m', m.translated (Table.ofEntries e).translator = .ok m' ∧
      (m'.findLastCall (Table.ofEntries e).translator q).map (Option.map Found.index) =
        (m.findLastCall .identity q).map (Option.map Found.index) := by
  obtain ⟨m', hm', hitems⟩ := exists_translated fun c hc =>
    Table.runtimeMethod_of_slashed e (calls c hc).1 (calls c hc).2
  refine ⟨m', hm', ?_⟩
  cases hmethod : q.method? with
  | none =>
      rw [findLastCall, findLastCall, hmethod]
  | some r =>
      obtain ⟨owner, name, descriptor⟩ := r
      let target : MemberRef := ⟨internal owner, name, descriptor⟩
      have hthere : (Table.ofEntries e).translator.runtimeMethod ⟨owner, name, descriptor⟩ =
          .ok ((Table.ofEntries e).renamedMethod target) :=
        Table.translator_runtimeMethod e (query _ hmethod)
      have hhere : Translator.identity.runtimeMethod ⟨owner, name, descriptor⟩ = .ok target := rfl
      have htarget : target ∈ m.compared q := by
        rw [compared, hmethod]
        exact List.mem_cons_self
      rw [findLastCall_of_target m' hmethod hthere, findLastCall_of_target m hmethod hhere]
      refine congrArg Except.ok ?_
      rw [findLast, findLast, hitems]
      refine Found.index_lastOf_map (fun i hi => ?_) 0 rfl
      exact isAnsweredBy_mapCallee given apart.injOn htarget fun c hc =>
        List.mem_append_right _ (mem_calls hi hc)

/-- A class takes the name of another one, and a method the name that another one of its class had. -/
def sampleRenames : Entries where
  classes := .ofList [("a.B", "x"), ("a/C", "a/B")]
  methods := [⟨"a/C", "k", "(La/B;)V", "m"⟩, ⟨"a.C", "m", "(La/B;)V", "n"⟩]
  fields := []

/-- Calls both methods, and then again the first. -/
def sampleCaller : Method :=
  { bare ⟨9⟩ "caller" "()V" with
    code := some {
      maxStack := 2
      maxLocals := 0
      items := [.instruction (.call Opcode.invokevirtual ⟨"a/C", "k", "(La/B;)V"⟩ false), .label ⟨0⟩,
        .instruction (.call Opcode.invokevirtual ⟨"a/C", "m", "(La/B;)V"⟩ false),
        .instruction (.call Opcode.invokevirtual ⟨"a/C", "k", "(La/B;)V"⟩ false)]
      handlers := []
      attributes := []
      order := [] } }

theorem findLastCall_translated_sampleRenames :
    ∃ m', sampleCaller.translated (Table.ofEntries sampleRenames).translator = .ok m' ∧
      (m'.findLastCall (Table.ofEntries sampleRenames).translator
        ⟨"a.C", "m(La/B;)V", Opcode.invokevirtual, false⟩).map (Option.map Found.index) = .ok (some 2) := by
  let q : CallQuery := ⟨"a.C", "m(La/B;)V", Opcode.invokevirtual, false⟩
  have hclass := Table.runtimeClass_ofEntries sampleRenames
  have hmethod := Table.runtimeMethod_ofEntries sampleRenames
  have hcompared : sampleCaller.compared q = [⟨"a/C", "m", "(La/B;)V"⟩, ⟨"a/C", "k", "(La/B;)V"⟩,
      ⟨"a/C", "m", "(La/B;)V"⟩, ⟨"a/C", "k", "(La/B;)V"⟩] := by
    decide +kernel
  have hclasses : ∀ n ∈ (sampleCaller.compared q).flatMap fun m => m.owner :: classNames m.descriptor,
      ∀ n' ∈ (sampleCaller.compared q).flatMap fun m => m.owner :: classNames m.descriptor,
        (Table.ofEntries sampleRenames).runtimeClass n = (Table.ofEntries sampleRenames).runtimeClass n' → n = n' := by
    rw [hcompared, hclass]
    decide +kernel
  have apart : sampleRenames.KeepsApart (sampleCaller.compared q) := {
    semicolon := by decide +kernel
    classes := fun n hn n' hn' => hclasses n hn n' hn'
    names := by
      rw [hcompared, hmethod]
      decide +kernel }
  obtain ⟨m', hm', hfound⟩ := findLastCall_translated apart
    (by unfold SlashedClasses; decide +kernel) (by unfold SlashedClasses; decide +kernel) rfl
  refine ⟨m', hm', hfound.trans ?_⟩
  decide +kernel

/-- One class is renamed. -/
def sampleRename : Entries :=
  ⟨.ofList [("a/b", "x")], [], []⟩

/-- Calls a method with an argument of the class. -/
def sampleCall : Method :=
  { bare ⟨9⟩ "caller" "()V" with
    code := some {
      maxStack := 1
      maxLocals := 0
      items := [.instruction (.call Opcode.invokestatic ⟨"A", "m", "(La/b;)V"⟩ false)]
      handlers := []
      attributes := []
      order := [] } }

/-- The descriptor of the query has to be spelled with slashes. A translator for code that was not renamed takes it as
it is, and finds nothing under the other spelling; one that looks its classes up brings them into their spelling first,
and finds the call. -/
theorem findLastCall_dotted :
    sampleRename.KeepsApart (sampleCall.compared ⟨"A", "m(La.b;)V", Opcode.invokestatic, false⟩) ∧
      (∀ c ∈ sampleCall.calls, internal c.owner = c.owner ∧ SlashedClasses c.descriptor) ∧
      (sampleCall.findLastCall .identity ⟨"A", "m(La.b;)V", Opcode.invokestatic, false⟩).map
        (Option.map Found.index) = .ok none ∧
      ∃ m', sampleCall.translated (Table.ofEntries sampleRename).translator = .ok m' ∧
        (m'.findLastCall (Table.ofEntries sampleRename).translator
          ⟨"A", "m(La.b;)V", Opcode.invokestatic, false⟩).map (Option.map Found.index) = .ok (some 0) := by
  let q : CallQuery := ⟨"A", "m(La.b;)V", Opcode.invokestatic, false⟩
  have hclass := Table.runtimeClass_ofEntries sampleRename
  have hmethod : (Table.ofEntries sampleRename).runtimeMethod = MemberRef.name :=
    Table.runtimeMethod_ofEntries sampleRename
  have hcompared : sampleCall.compared q = [⟨"A", "m", "(La.b;)V"⟩, ⟨"A", "m", "(La/b;)V"⟩] := by
    decide +kernel
  have hclasses : ∀ n ∈ (sampleCall.compared q).flatMap fun m => m.owner :: classNames m.descriptor,
      ∀ n' ∈ (sampleCall.compared q).flatMap fun m => m.owner :: classNames m.descriptor,
        (Table.ofEntries sampleRename).runtimeClass n = (Table.ofEntries sampleRename).runtimeClass n' → n = n' := by
    rw [hcompared, hclass]
    decide +kernel
  have apart : sampleRename.KeepsApart (sampleCall.compared q) := {
    semicolon := by decide +kernel
    classes := fun n hn n' hn' => hclasses n hn n' hn'
    names := fun m _ m' _ _ _ h => by rwa [hmethod] at h }
  have calls : ∀ c ∈ sampleCall.calls, internal c.owner = c.owner ∧ SlashedClasses c.descriptor := by
    unfold SlashedClasses
    decide +kernel
  obtain ⟨m', hm', hitems⟩ := exists_translated fun c hc =>
    Table.runtimeMethod_of_slashed sampleRename (calls c hc).1 (calls c hc).2
  refine ⟨apart, calls, by decide +kernel, m', hm', ?_⟩
  -- The class of the query is looked up under its spelling with slashes, so the target is the method that is called.
  have htarget : (Table.ofEntries sampleRename).translator.runtimeMethod ⟨"A", "m", "(La.b;)V"⟩ =
      .ok ⟨"A", "m", "(Lx;)V"⟩ := by
    refine (Translator.member_of_lookups (fun _ => rfl) (fun _ => rfl) _ _ _ _).trans ?_
    rw [hclass, hmethod]
    decide +kernel
  have hquery : q.method? = some ⟨"A", "m", "(La.b;)V"⟩ := by decide +kernel
  rw [findLastCall_of_target m' hquery htarget, findLast, hitems]
  unfold Table.renamedMethod
  rw [hclass, hmethod]
  decide +kernel

end Method

end ClassFile
