import ClassFile.Proofs.Code.Operations
import ClassFile.Proofs.Record.CanonicalFiles
/-!
# What rewriting a file does to its operations

A file is parsed and written again. Its methods stay, and each keeps its instructions in number and in order. §1 compares the
instructions of two files by their operations; §2 says which operations the written file has. They are those
of the file that was parsed, with one exception: a dynamic constant loaded as two slots is loaded as one
afterwards. So a file keeps its operations exactly if it holds no such load, and §3 has one that does.
-/

namespace ClassFile

open Bytes (ofUInt32)
open Attribute

/-! ## §1  Instructions of files -/

namespace FileView

/-- What stands at each instruction of a file. -/
def forms (v : FileView) : List Bytes :=
  v.outline.methods.flatMap fun m => (m.body?.bind (Code.forms v.pool)).getD []

/-- The methods of `w` are those of `v`, instruction by instruction, and have the operations that `f` says. -/
def OperationsBecome (f : Bytes → Opcode) (v w : FileView) : Prop :=
  List.Forall₂
    (fun m m' => Option.Rel
      (fun body body' => ∃ is is', Code.forms v.pool body = some is ∧ Code.forms w.pool body' = some is' ∧
        is'.map Instruction.operation = is.map f) m.body? m'.body?)
    v.outline.methods w.outline.methods

/-- The methods of both files have the same operations, instruction by instruction. -/
def SameOperations (v w : FileView) : Prop :=
  OperationsBecome Instruction.operation v w

variable {v w : FileView} {f g : Bytes → Opcode}

theorem mem_forms {i : Bytes} : i ∈ v.forms ↔ ∃ m ∈ v.outline.methods, ∃ body, m.body? = some body ∧
    ∃ is, Code.forms v.pool body = some is ∧ i ∈ is := by
  simp only [forms, List.mem_flatMap]
  refine exists_congr fun m => and_congr_right fun _ => ?_
  cases m.body? with
  | none => simp
  | some body =>
      rw [Option.bind_some]
      cases hforms : Code.forms v.pool body <;> simp [hforms]

theorem OperationsBecome.congr (h : OperationsBecome f v w) (hfg : ∀ i ∈ v.forms, f i = g i) :
    OperationsBecome g v w := by
  refine forall₂_imp_mem h fun m hm m' hmm => ?_
  have hforms : ∀ body is, m.body? = some body → Code.forms v.pool body = some is →
      ∀ i ∈ is, f i = g i := fun body is hbody his i hi =>
    hfg i (mem_forms.mpr ⟨m, hm, body, hbody, is, his, hi⟩)
  generalize m.body? = body at hmm hforms
  generalize m'.body? = body' at hmm
  cases hmm with
  | none => exact .none
  | some hbody =>
      obtain ⟨is, is', his, his', heq⟩ := hbody
      exact .some ⟨is, is', his, his', heq.trans (List.map_congr_left (hforms _ is rfl his))⟩

theorem OperationsBecome.unique (h : OperationsBecome f v w) (h' : OperationsBecome g v w) :
    ∀ i ∈ v.forms, f i = g i := by
  intro i hi
  obtain ⟨m, hm, body, hbody, is, his, hi⟩ := mem_forms.mp hi
  obtain ⟨m', -, hf, hg⟩ := forall₂_mem_left (forall₂_and h h') hm
  rw [hbody] at hf hg
  generalize m'.body? = body' at hf hg
  cases hf with
  | some hf =>
      cases hg with
      | some hg =>
          obtain ⟨is₁, js₁, his₁, hjs₁, heq₁⟩ := hf
          obtain ⟨is₂, js₂, his₂, hjs₂, heq₂⟩ := hg
          obtain rfl := Option.some.inj (his.symm.trans his₁)
          obtain rfl := Option.some.inj (his.symm.trans his₂)
          obtain rfl := Option.some.inj (hjs₁.symm.trans hjs₂)
          exact List.map_inj_left.mp (heq₁.symm.trans heq₂) i hi

/-- If the operations become those that are written, they stay exactly if there is no pair among the loads. -/
theorem OperationsBecome.same_iff (h : OperationsBecome (Instruction.rewritten v.pool) v w) :
    SameOperations v w ↔ ∀ i ∈ v.forms, Instruction.loadsDynamicPair v.pool i = false := by
  constructor
  · intro hsame i hi
    have heq := h.unique hsame i hi
    by_contra hpair
    rw [Bool.not_eq_false] at hpair
    rw [Instruction.rewritten, if_pos hpair] at heq
    have htwo : Instruction.operation i = Opcode.ldcTwoSlot := by
      rw [Instruction.loadsDynamicPair] at hpair
      split at hpair
      · rw [Bool.and_eq_true, beq_iff_eq] at hpair
        exact hpair.1
      · cases hpair
    rw [htwo] at heq
    exact absurd heq (by decide)
  · intro hnone
    exact h.congr fun i hi => by rw [Instruction.rewritten, hnone i hi, if_neg Bool.false_ne_true]

end FileView

/-! ## §2  Operations after rewriting -/

/-- What a written method has for a body. -/
theorem Method.body?_of_codeBytes {q : Pool} {code : Option Code} {m : MemberView}
    (h : Method.codeBytes q code (named Attribute.code m.attributes)) :
    Option.Rel (fun c body => ∃ w, c.written.Gives q w ∧ body = w.bytes) code m.body? := by
  rw [MemberView.body?]
  cases code with
  | none =>
      rw [show named Attribute.code m.attributes = [] from h]
      exact .none
  | some c =>
      obtain ⟨w, hw, hattributes⟩ := h
      rw [hattributes]
      exact .some ⟨w, hw, rfl⟩

namespace Record

/-- The operations of a file that is parsed and written again. -/
theorem operationsBecome {v w : FileView} {r : Record} (hview : r.OfView v)
    (hgrows : v.pool.Grows w.pool) (wf : w.pool.WellFormed)
    (hwritten : r.WrittenAs w.pool w.outline)
    (hslots : ∀ i ∈ v.forms, Instruction.loadsBySlots v.pool i = true) :
    v.OperationsBecome (Instruction.rewritten v.pool) w := by
  obtain ⟨o, hrel, rfl⟩ := hview
  have hmethods : List.Forall₂ (fun view m => view ∈ v.outline.methods ∧ Method.OfView v.pool view m)
      v.outline.methods o.methods :=
    forall₂_imp_mem hrel.methods fun view hview m hm => ⟨hview, hm⟩
  refine forall₂_beside hmethods.flip hwritten.methods fun m _ view view' hm hbody => ?_
  obtain ⟨hmem, hm⟩ := hm
  have hread := Method.code_of_ofView hm
  have hwritten := Method.body?_of_codeBytes (hbody.codeBytes fun a ha =>
    (unclaimed_method_iff.mp (Method.unclaimed_of_ofView hm a ha)).2.1)
  have hslots : ∀ body is, view.body? = some body → Code.forms v.pool body = some is →
      ∀ i ∈ is, Instruction.loadsBySlots v.pool i = true := fun body is hbody his i hi =>
    hslots i (FileView.mem_forms.mpr ⟨view, hmem, body, hbody, is, his, hi⟩)
  -- A method has a body before and after, or neither; nothing else of the three matters.
  generalize view.body? = body at hread hslots
  generalize m.code = code at hread hwritten
  generalize view'.body? = body' at hwritten
  cases hread with
  | none =>
      cases hwritten
      exact .none
  | some hread =>
      cases hwritten with
      | some hwritten =>
          obtain ⟨written, hgives, rfl⟩ := hwritten
          obtain ⟨is, his, hrewritten⟩ := Code.rewritten_of_ofBytes hread
          obtain ⟨is', his', hoperations⟩ := Code.operations_of_gives wf hgives fun i hi =>
            (Code.backed_of_ofBytes hread i hi).grows hgrows
          exact .some ⟨is, is', his, his', hoperations.trans (hrewritten (hslots _ is rfl his)).symm⟩

/-- **Operations of a rewritten file.** A file that is parsed and written again keeps the operation of each instruction if
and only if it loads no dynamic constant as two slots; such a load becomes one of one slot. Texts have to fit
their length again, and constants have to be loaded by the opcode for their slots. -/
theorem sameOperations_iff {b s : Bytes} {r : Record} (h : parse b = .ok r) (fit : r.pool.TextsFit)
    (hs : r.serialize = .ok s) : ∃ v w, FileView.ofBytes b = some v ∧ FileView.ofBytes s = some w ∧
      ((∀ i ∈ v.forms, Instruction.loadsBySlots v.pool i = true) →
        v.OperationsBecome (Instruction.rewritten v.pool) w ∧
          (v.SameOperations w ↔ ∀ i ∈ v.forms, Instruction.loadsDynamicPair v.pool i = false)) := by
  obtain ⟨v, w, hv, hw, hview, hwritten, hgrows, -, wf⟩ := FileView.views_of_rewritten h fit hs
  refine ⟨v, w, hv, hw, fun hslots => ?_⟩
  have hbecome := operationsBecome hview hgrows wf hwritten hslots
  exact ⟨hbecome, hbecome.same_iff⟩

end Record

/-! ## §3  A dynamic constant of two slots -/

/-- A body of these instructions, without handlers and attributes. -/
def bareBody (bytecode : Bytes) : Bytes :=
  [0x00, 0x02, 0x00, 0x00] ++ ofUInt32 (UInt32.ofNat bytecode.length) ++ bytecode ++
    [0x00, 0x00, 0x00, 0x00]

/-- A class with one method, of these instructions. The last entry of its pool, number 8, is a dynamic constant that is a
long integer. -/
def dynamicFile (bytecode : Bytes) : Bytes :=
  [0xca, 0xfe, 0xba, 0xbe, 0x00, 0x00, 0x00, 0x37, 0x00, 0x09, 0x01, 0x00, 0x01, 0x41, 0x07, 0x00, 0x01, 0x01,
   0x00, 0x01, 0x6d, 0x01, 0x00, 0x03, 0x28, 0x29, 0x4a, 0x01, 0x00, 0x04, 0x43, 0x6f, 0x64, 0x65, 0x01, 0x00,
   0x01, 0x4a, 0x0c, 0x00, 0x03, 0x00, 0x06, 0x11, 0x00, 0x00, 0x00, 0x07, 0x00, 0x21, 0x00, 0x02, 0x00, 0x00,
   0x00, 0x00, 0x00, 0x00, 0x00, 0x01, 0x00, 0x09, 0x00, 0x03, 0x00, 0x04, 0x00, 0x01, 0x00, 0x05] ++
    ofUInt32 (UInt32.ofNat (bareBody bytecode).length) ++ bareBody bytecode ++ [0x00, 0x00]

/-- Loads the constant as two slots, and returns it. -/
def pairLoaded : Bytes := [0x14, 0x00, 0x08, 0xad]

/-- Loads the constant as one slot. -/
def singleLoaded : Bytes := [0x12, 0x08, 0xad]

/-- The body that is read of either load. -/
def dynamicBody : Code :=
  ⟨2, 0, [.instruction (.load (.pooled 8)), .instruction (.plain 0xad)], [], [], []⟩

/-- The class that is read of either load. -/
def dynamicRecord (pool : Pool) : Record :=
  Record.ofOutline (0, 55) pool ⟨⟨0x21⟩, "A", none, [], [],
    [⟨⟨0x09⟩, "m", "()J", [], [], some dynamicBody, [], [Attribute.code]⟩], ⟨[]⟩⟩

/-- The outline of the file. -/
def dynamicOutline (bytecode : Bytes) : Outline MemberView MemberView (List Attribute) :=
  ⟨⟨0x21⟩, "A", none, [], [], [⟨⟨0x09⟩, "m", "()J", [⟨Attribute.code, bareBody bytecode⟩]⟩], []⟩

theorem exists_view_dynamicFile {bytecode : Bytes}
    (houtline : (FileView.ofBytes (dynamicFile bytecode)).map (fun v => (v.version, v.outline)) =
      some ((0, 55), dynamicOutline bytecode))
    (hbody : (FileView.ofBytes (dynamicFile bytecode)).all
      (fun v => decide ((Code.ofBytes v.pool (bareBody bytecode)).toOption = some dynamicBody)) = true) :
    ∃ v, FileView.ofBytes (dynamicFile bytecode) = some v ∧ (dynamicRecord v.pool).OfView v :=
  exists_view_of_body houtline hbody

theorem Record.sameOperations_iff_dynamicFile : ∃ r v w, parse (dynamicFile pairLoaded) = .ok r ∧
    r.pool.TextsFit ∧ r.serialize = .ok (dynamicFile singleLoaded) ∧
      FileView.ofBytes (dynamicFile pairLoaded) = some v ∧
      FileView.ofBytes (dynamicFile singleLoaded) = some w ∧
      (∀ i ∈ v.forms, Instruction.loadsBySlots v.pool i = true) ∧
      v.OperationsBecome (Instruction.rewritten v.pool) w ∧ ¬ v.SameOperations w := by
  obtain ⟨v, hv, hview⟩ := @exists_view_dynamicFile pairLoaded rfl (by decide +kernel)
  obtain ⟨w, hw, hview'⟩ := @exists_view_dynamicFile singleLoaded rfl (by decide +kernel)
  have hpool : v.pool = w.pool := by
    have hpools : (FileView.ofBytes (dynamicFile pairLoaded)).map (·.pool) =
        (FileView.ofBytes (dynamicFile singleLoaded)).map (·.pool) := rfl
    rw [hv, hw] at hpools
    exact Option.some.inj hpools
  have hcanonical : w.IsCanonical := FileView.isCanonical_of_all hw (by decide +kernel)
  obtain ⟨hq, -⟩ := FileView.heldBy_of_ofBytes hw hcanonical.entries hcanonical.texts
  have hr : parse (dynamicFile pairLoaded) = .ok (dynamicRecord v.pool) :=
    parse_eq_ok.mpr ⟨v, hv, hview⟩
  have fit : (dynamicRecord v.pool).pool.TextsFit := by
    rw [hpool]
    exact hq.textsFit
  have hs : (dynamicRecord v.pool).serialize = .ok (dynamicFile singleLoaded) := by
    rw [hpool]
    exact serialize_of_isCanonical hw hview' hcanonical
  have hslots : ∀ i ∈ v.forms, Instruction.loadsBySlots v.pool i = true := by
    have hall : v.forms.all (Instruction.loadsBySlots v.pool) = true :=
      @FileView.holds_of_all _ v (fun v => v.forms.all (Instruction.loadsBySlots v.pool)) hv
        (by decide +kernel)
    exact List.all_eq_true.mp hall
  have hpair : v.forms.any (Instruction.loadsDynamicPair v.pool) = true :=
    @FileView.holds_of_all _ v (fun v => v.forms.any (Instruction.loadsDynamicPair v.pool)) hv
      (by decide +kernel)
  obtain ⟨v', w', hv', hw', h⟩ := sameOperations_iff hr fit hs
  obtain rfl := Option.some.inj (hv.symm.trans hv')
  obtain rfl := Option.some.inj (hw.symm.trans hw')
  obtain ⟨hbecome, hsame⟩ := h hslots
  refine ⟨_, v, w, hr, fit, hs, hv, hw, hslots, hbecome, fun hkept => ?_⟩
  obtain ⟨i, hi, hloads⟩ := List.any_eq_true.mp hpair
  rw [hsame.mp hkept i hi] at hloads
  cases hloads

end ClassFile
