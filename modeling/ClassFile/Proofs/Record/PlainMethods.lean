import ClassFile.Proofs.Code.Room
import ClassFile.Proofs.Record.AddedMethods
/-!
# Methods that come back as they were

Reading undoes writing up to the names of labels and the grouping of annotations and attributes. A method that has
nothing of the kind comes back as it was, line by line; only the names of its attributes are recorded, which nobody does
for a method that was just made. Bodies that run straight from the first instruction to the last are of this kind (§1),
and methods that have such a body and nothing else (§2). So whoever adds one to a class finds it again in the file (§3),
and there is a file as soon as there is room for the names that the method takes (§4).
-/

namespace ClassFile

open Attribute

variable {q : Pool}

/-! ## §1  Straight bodies -/

namespace Attribute

/-- Of one attribute, or none, there is only one order. -/
theorem eq_of_named_eq {as bs : List Attribute} (h : ∀ n, named n as = named n bs) (hbs : bs.length ≤ 1) : as = bs := by
  have hmem : ∀ a ∈ as, a ∈ bs := fun a ha => List.mem_of_mem_filter (h a.name ▸ mem_named ha)
  match bs, hbs with
  | [], _ => exact List.eq_nil_iff_forall_not_mem.mpr fun a ha => nomatch hmem a ha
  | [b], _ =>
      have hname : ∀ a ∈ as, a.name = b.name := fun a ha => congrArg Attribute.name (List.mem_singleton.mp (hmem a ha))
      calc as = named b.name as := (named_eq_self hname).symm
        _ = named b.name [b] := h b.name
        _ = [b] := named_cons_pos rfl []

/-- Without annotations a table is made of its other parts alone. -/
theorem MadeOf.named_eq {modelled verbatim attributes : List Attribute}
    (h : MadeOf q modelled verbatim [] attributes) (n : String) :
    named n attributes = named n (modelled ++ verbatim) := by
  rw [named_append]
  rcases eq_annotationsName_or n with ⟨v, rfl⟩ | ⟨hn, -⟩
  · obtain ⟨own, hown, hnamed⟩ := h.ofVisibility v
    obtain ⟨-, rfl⟩ | ⟨hne, -⟩ := gives_ofAnnotations.mp hown
    · rw [hnamed, List.append_nil]
    · exact absurd rfl hne
  · exact h.ofOthers n hn

end Attribute

theorem eq_of_map_eq_map {α β : Type} {f g : α → β} {as bs : List α} (h : as.map f = bs.map g)
    (hback : ∀ b ∈ bs, ∀ a, f a = g b → a = b) : as = bs := by
  induction bs generalizing as with
  | nil => exact List.map_eq_nil_iff.mp h
  | cons b bs ih =>
      obtain ⟨a, as, rfl, hhead, htail⟩ := List.map_eq_cons_iff.mp h
      rw [hback b List.mem_cons_self a hhead, ih htail fun b hb => hback b (List.mem_cons_of_mem _ hb)]

namespace Instruction

/-- The instruction leads nowhere but to the next one, and loads no constant. -/
def Straight {τ : Type} (i : Instruction τ) : Prop :=
  i.targets = [] ∧ ∀ c, i ≠ .load c

variable {i j : Instruction Label}

theorem Straight.settled_eq (h : i.Straight) : i.settled = i := by
  cases i with
  | load c => exact absurd rfl (h.2 c)
  | _ => rfl

theorem Straight.backed (h : i.Straight) (q : Pool) : i.Backed q := by
  cases i with
  | load c => exact absurd rfl (h.2 c)
  | _ => trivial

theorem map_map_of_targets {τ : Type} (h : i.targets = []) (f : Label → τ) (g : τ → Label) : (i.map f).map g = i := by
  rw [map_map, map_congr (g := id), map_id]
  rw [h]
  exact fun _ ht => nomatch ht

/-- Without targets an instruction is the same before and after they are renamed. -/
theorem Straight.eq_of_map_eq {τ : Type} (h : i.Straight) {f g : Label → τ} (hmap : j.map f = i.map g) : j = i := by
  have htargets : j.targets = [] := by
    rw [← List.map_eq_nil_iff (f := f), ← targets_map, hmap, targets_map, h.1]
    rfl
  calc j = (j.map f).map fun _ => default := (map_map_of_targets htargets f _).symm
    _ = (i.map g).map fun _ => default := by rw [hmap]
    _ = i := map_map_of_targets h.1 g _

end Instruction

/-- Where no label is placed, only instructions are. -/
theorem Labels.Woven.items_eq {f : Nat → Label} {length : Nat} {labels : List (Nat × Label)} {located : List Located}
    {items : List Item} (h : Woven f length labels located items) (hlabels : labels = []) :
    items = (items.filterMap Item.instruction?).map .instruction := by
  induction h with
  | done => rfl
  | label => cases hlabels
  | instruction _ ih => exact congrArg (_ :: ·) (ih hlabels)

namespace Code

/-- A list of instructions, each of which leads to the next one, and nothing else. -/
structure Straight (c : Code) : Prop where
  items : ∀ x ∈ c.items, ∃ i, x = .instruction i ∧ i.Straight
  handlers : c.handlers = []
  attributes : c.attributes = []
  order : c.order = []

variable {c r : Code} {body : Bytes}

theorem Straight.straight (h : c.Straight) : ∀ i ∈ c.items.filterMap Item.instruction?, i.Straight := by
  intro i hi
  obtain ⟨x, hx, hi⟩ := List.mem_filterMap.mp hi
  obtain ⟨i', rfl, hstraight⟩ := h.items x hx
  obtain rfl := Option.some.inj hi
  exact hstraight

theorem Straight.items_eq (h : c.Straight) : c.items = (c.items.filterMap Item.instruction?).map .instruction := by
  have hitems := h.items
  generalize c.items = items at hitems
  induction items with
  | nil => rfl
  | cons x items ih =>
      obtain ⟨i, rfl, -⟩ := hitems x List.mem_cons_self
      exact congrArg (_ :: ·) (ih fun x hx => hitems x (List.mem_cons_of_mem _ hx))

/-- Nothing in a body that was read refers to a label, so none was placed. -/
theorem items_eq_of_ofBytes (h : ofBytes q body = .ok r) (hhandlers : r.handlers = [])
    (htargets : ∀ i ∈ r.items.filterMap Item.instruction?, i.targets = []) :
    r.items = (r.items.filterMap Item.instruction?).map .instruction := by
  obtain ⟨view, parts, -, -, hc⟩ := ofBytes_eq_ok.mp h
  obtain ⟨located, items, -, hitems, rfl⟩ := ofParts_eq_ok.mp hc
  have hwoven := Labels.woven_of_place hitems
  have hhandlers : parts.handlers = [] := List.map_eq_nil_iff.mp hhandlers
  refine hwoven.items_eq ?_
  have hnone : Labels.targetOffsets located parts.handlers = [] := by
    refine List.eq_nil_iff_forall_not_mem.mpr fun t ht => ?_
    rcases ((Labels.targetOffsets_spec located parts.handlers).2 t).mp ht with ⟨x, hx, ht⟩ | ⟨handler, hhandler, -⟩
    · have hmap := htargets _ (hwoven.instructions_eq ▸ List.mem_map.mpr ⟨x, hx, rfl⟩)
      rw [Instruction.targets_map, List.map_eq_nil_iff] at hmap
      rw [hmap] at ht
      cases ht
    · rw [hhandlers] at hhandler
      cases hhandler
  rw [hnone]
  rfl

theorem ReadAs.handlers_eq_nil (h : ReadAs c r) (straight : c.Straight) : r.handlers = [] := by
  have hpositions := h.handlers
  rw [handlerPositions, handlerPositions, straight.handlers] at hpositions
  exact List.map_eq_nil_iff.mp hpositions

/-- The same instructions are read that were written, and no labels between them. -/
theorem ReadAs.items_eq (h : ReadAs c r) (straight : c.Straight) (hr : ofBytes q body = .ok r) :
    r.items = c.items := by
  have hsettled : c.instructions.map Instruction.settled = c.instructions := by
    refine (List.map_congr_left fun i hi => ?_).trans (List.map_id' _)
    obtain ⟨i', hi', rfl⟩ := List.mem_map.mp hi
    rw [Instruction.settled_map, (straight.straight i' hi').settled_eq]
  have hinstructions : r.items.filterMap Item.instruction? = c.items.filterMap Item.instruction? :=
    eq_of_map_eq_map (h.instructions.trans hsettled) fun i hi j hmap => (straight.straight i hi).eq_of_map_eq hmap
  have hread := items_eq_of_ofBytes hr (h.handlers_eq_nil straight) fun i hi =>
    (straight.straight i (hinstructions ▸ hi)).1
  rw [hread, hinstructions, ← straight.items_eq]

/-- A straight body comes back as it was. -/
theorem Straight.eq_of_written (wf : q.WellFormed) (straight : c.Straight) {w : Written} (hw : c.written.Gives q w)
    (hr : ofBytes q w.bytes = .ok r) : r = c := by
  have raw : ∀ a ∈ c.attributes, Unclaimed Claim.none a.name := by
    rw [straight.attributes]
    exact fun _ ha => nomatch ha
  obtain ⟨r', hr', hreadAs, -⟩ := read_of_gives wf hw (fun i hi => (straight.straight i hi).backed q) raw
  obtain rfl := Except.ok.inj (hr.symm.trans hr')
  obtain ⟨view, hview, written⟩ := view_of_gives wf hw
  obtain ⟨view', parts, hview', ⟨t, ht, rfl⟩, hc⟩ := ofBytes_eq_ok.mp hr
  obtain rfl := Except.ok.inj (hview.symm.trans hview')
  have hattributes : view.attributes = [] := by
    refine eq_of_named_eq (fun n => ?_) (Nat.zero_le 1)
    rw [written.table.named_eq, straight.attributes]
    rfl
  have horder : r.order = [] := by
    obtain ⟨located, items, -, -, rfl⟩ := ofParts_eq_ok.mp hc
    show t.order = []
    rw [order_eq ht, hattributes]
    rfl
  have hverbatim : r.attributes = [] := by
    refine eq_of_named_eq (fun n => ?_) (Nat.zero_le 1)
    rw [hreadAs.attributes, straight.attributes]
  have hitems := hreadAs.items_eq straight hr
  have hhandlers := hreadAs.handlers_eq_nil straight
  have hmaxStack := hreadAs.maxStack
  have hmaxLocals := hreadAs.maxLocals
  obtain ⟨⟩ := r
  obtain ⟨⟩ := c
  rw [mk.injEq]
  exact ⟨hmaxStack, hmaxLocals, hitems, hhandlers.trans straight.handlers.symm,
    hverbatim.trans straight.attributes.symm, horder.trans straight.order.symm⟩

end Code

/-! ## §2  Plain methods -/

namespace Method

/-- A method that has a straight body and nothing else. -/
structure Plain (m : Method) : Prop where
  body : ∃ c, m.code = some c ∧ c.Straight
  exceptions : m.exceptions = []
  annotations : m.annotations = []
  attributes : m.attributes = []

variable {m r : Method}

/-- A plain method comes back as it was, and it is recorded that it has a body. -/
theorem Plain.eq_of_written (wf : q.WellFormed) (plain : m.Plain) {view : MemberView} (written : m.WrittenAs q view)
    (hview : r.OfView q view) (h : ReadAs m r) : r = { m with order := [Attribute.code] } := by
  obtain ⟨c, hcode, straight⟩ := plain.body
  obtain ⟨code, exceptions, hbytes, hgives, made⟩ := written.table
  obtain rfl : exceptions = [] := by
    rcases gives_exceptionsAttribute.mp hgives with ⟨-, rfl⟩ | ⟨hne, -⟩
    · rfl
    · exact absurd plain.exceptions hne
  rw [hcode] at hbytes
  obtain ⟨w, hw, rfl⟩ := hbytes
  rw [plain.attributes, plain.annotations] at made
  have hattributes : view.attributes = [⟨Attribute.code, w.bytes⟩] :=
    eq_of_named_eq made.named_eq (Nat.le_refl 1)
  have hbody : r.code = some c := by
    have hlast : view.body? = some w.bytes := by
      rw [MemberView.body?, hattributes, named_eq_self (by simp)]
      rfl
    have hrel := code_of_ofView hview
    rw [hlast] at hrel
    generalize hrcode : r.code = code at hrel
    cases hrel with
    | some hr => rw [straight.eq_of_written wf hw hr]
  have horder : r.order = [Attribute.code] := by
    obtain ⟨t, ht, rfl⟩ := hview
    show t.order = _
    rw [order_eq ht, hattributes]
    rfl
  have hannotations : r.annotations = [] := eq_nil_of_withVisibility fun v => by
    rw [h.annotations, plain.annotations]
    rfl
  have hverbatim : r.attributes = [] := by
    refine eq_of_named_eq (fun n => ?_) (Nat.zero_le 1)
    rw [h.attributes, plain.attributes]
  have haccess := h.access
  have hname := h.name
  have hdescriptor := h.descriptor
  have hexceptions := h.exceptions
  obtain ⟨⟩ := r
  rw [mk.injEq]
  exact ⟨haccess, hname, hdescriptor, hexceptions, hannotations.trans plain.annotations.symm, hbody.trans hcode.symm,
    hverbatim.trans plain.attributes.symm, horder⟩

end Method

/-! ## §3  A class with a plain method more -/

namespace Record

variable {c : Record} {m : Method}

theorem Raw.concat (raw : c.Raw) (plain : m.Plain) : Raw { c with methods := c.methods ++ [m] } := by
  obtain ⟨body, hcode, straight⟩ := plain.body
  refine ⟨raw.ofClass, raw.ofFields, ?_, ?_⟩
  · intro m' hm' a ha
    rcases List.mem_append.mp hm' with hm' | hm'
    · exact raw.ofMethods m' hm' a ha
    · rw [List.mem_singleton.mp hm', plain.attributes] at ha
      cases ha
  · intro m' hm' b hb a ha
    rcases List.mem_append.mp hm' with hm' | hm'
    · exact raw.ofBodies m' hm' b hb a ha
    · rw [List.mem_singleton.mp hm', hcode] at hb
      rw [← Option.some.inj hb, straight.attributes] at ha
      cases ha

theorem PooledBacked.concat (backed : c.PooledBacked) (plain : m.Plain) :
    PooledBacked { c with methods := c.methods ++ [m] } := by
  obtain ⟨body, hcode, straight⟩ := plain.body
  intro m' hm' b hb i hi
  rcases List.mem_append.mp hm' with hm' | hm'
  · exact backed m' hm' b hb i hi
  · rw [List.mem_singleton.mp hm', hcode] at hb
    obtain rfl := Option.some.inj hb
    exact (straight.straight i hi).backed c.pool

/-- A method behind others is found if none of them has its name and descriptor. -/
theorem method?_of_readAs {r : Record} {front : List Method} {m' : Method} (hnew : c.method? m.name m.descriptor = none)
    (hmethods : r.methods = front ++ [m']) (hfront : List.Forall₂ Method.ReadAs c.methods front)
    (hm' : m.ReadAs m') : r.method? m.name m.descriptor = some m' := by
  have hothers : front.find? (fun x => x.name == m.name && x.descriptor == m.descriptor) = none := by
    rw [List.find?_eq_none]
    intro x hx
    obtain ⟨y, hy, hyx⟩ := forall₂_mem_right hfront hx
    rw [hyx.name, hyx.descriptor]
    exact List.find?_eq_none.mp hnew y hy
  have hfound : (m'.name == m.name && m'.descriptor == m.descriptor) = true := by
    rw [hm'.name, hm'.descriptor, beq_self_eq_true, beq_self_eq_true]
    rfl
  rw [method?, hmethods, List.find?_append, hothers, Option.none_or, List.find?_cons, hfound]

/-- **A plain method is there again.** It is added to a class that has none of its name and descriptor. If the class can
be written then, the file is read as that class, and the method is found in it as it was. -/
theorem parse_serialize_concat (version : versionSupported c.major = true) (reachable : c.pool.Reachable)
    (fit : c.pool.TextsFit) (raw : c.Raw) (backed : c.PooledBacked) (plain : m.Plain)
    (hnew : c.method? m.name m.descriptor = none) {s : Bytes}
    (hs : serialize { c with methods := c.methods ++ [m] } = .ok s) :
    ∃ r, parse s = .ok r ∧ ReadAs { c with methods := c.methods ++ [m] } r ∧
      r.method? m.name m.descriptor = some { m with order := [Attribute.code] } := by
  let c' : Record := { c with methods := c.methods ++ [m] }
  obtain ⟨r, p, hr, hreadAs, -, -⟩ :=
    read_of_serialize (c := c') version reachable.wellFormed fit (raw.concat plain) (backed.concat plain) hs
  obtain ⟨w, hw, -, wf, written⟩ := FileView.ofBytes_of_serialize (c := c') version reachable.wellFormed fit hs
  obtain ⟨w', hw', hview⟩ := parse_eq_ok.mp hr
  obtain rfl := Option.some.inj (hw.symm.trans hw')
  obtain ⟨front, m', hmethods, hfront, hm'⟩ := forall₂_concat_left hreadAs.methods
  refine ⟨r, hr, hreadAs, ?_⟩
  rw [method?_of_readAs hnew hmethods hfront hm']
  -- The last method of the file is what is written of this one, and what the last one of the record is read from.
  obtain ⟨views, view, hviews, -, hwritten⟩ := forall₂_concat_left written.methods
  obtain ⟨o, hrel, rfl⟩ := hview
  have hviewed := hrel.methods
  rw [hviews] at hviewed
  obtain ⟨front', m'', hmethods', -, hofView⟩ := forall₂_concat_left hviewed
  obtain ⟨-, hlast⟩ := List.append_inj' (hmethods'.symm.trans hmethods) rfl
  obtain rfl := List.singleton_injective hlast
  rw [plain.eq_of_written wf hwritten hofView hm']

end Record

/-! ## §4  Room for a plain method -/

open Interning in
/-- A plain method of light instructions asks for its name and its descriptor, for what the instructions refer to, and
for the name of the attribute that holds its body. -/
theorem Method.Plain.needs_written {m : Method} (plain : m.Plain) (ns : List Nat) (horder : m.order = [])
    (hname : (Entry.utf8 m.name).Fits) (hdescriptor : (Entry.utf8 m.descriptor).Fits)
    (h : List.Forall₂ (fun x n => ∃ i, x = .instruction i ∧ i.Light n) m.items ns) (hne : m.items ≠ [])
    (hlength : 4 * m.items.length ≤ 65535) : m.written.Needs (1 + (1 + (ns.sum + 1))) := by
  obtain ⟨c, hcode, straight⟩ := plain.body
  have hitems : m.items = c.items := by rw [items, hcode]; rfl
  rw [hitems] at h hne hlength
  have hbody : c.written.Needs ns.sum :=
    Code.needs_written_of_light h hne hlength straight.handlers straight.attributes
  have hattribute : m.codeAttribute.Needs ns.sum := by
    rw [codeAttribute, hcode]
    exact needs_bind (n := 0) hbody fun w => needs_pure _
  have hfits : (Entry.utf8 Attribute.code).Fits := by
    show _ ≤ _
    decide
  rw [written]
  refine needs_bind (needs_text hname) fun i => needs_bind (needs_text hdescriptor) fun j => ?_
  refine needs_bind_of_gives hattribute fun q answer hgives => ?_
  obtain ⟨code, stale⟩ := answer
  obtain ⟨w, hw, rfl⟩ : codeBytes q (some c) code := hcode ▸ gives_codeAttribute.mp ⟨stale, hgives⟩
  have hbytes := Code.length_written_le hw straight.handlers straight.attributes
  have htable : (tableBytes [⟨Attribute.code, w.bytes⟩] [] [] []).Needs 1 :=
    needs_tableBytes_singleton hfits (Nat.le_trans hbytes (by decide))
  have hexceptions : m.exceptionsAttribute = pure [] := by
    rw [exceptionsAttribute, plain.exceptions]
    rfl
  dsimp only
  rw [hexceptions, pure_bind, plain.attributes, plain.annotations, horder]
  exact needs_bind (n := 0) htable fun table => needs_pure _

end ClassFile
