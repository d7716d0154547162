import ClassFile.Proofs.Pool.Constants
import ClassFile.Proofs.Pool.Requests
/-!
# Numbers that lead back

A number is given for a name or for a constant, and is later written into code and attributes. Whoever reads it there follows
it through the pool, from a member to its class and from the class to a text. A pool that was read may hold a text twice
and references that lead nowhere, and a compound request may find some of its entries, the first of several equal ones, and
add others. None of this matters: what is found under the number is what the number was given for (§2), and so it stays, since
whoever asks again on a later pool would be given the same number (§1).
-/

namespace ClassFile

open Pool (Consistent)

/-! ## §1  Answers that stay -/

namespace Request

variable {r : Request} {p q : Pool} {i : UInt16}

/-- If the request is answered on the pool `p`, then its number stands for what is `found`, on the pool that is left and on
every pool that comes later. -/
def LeadsTo (r : Request) (p : Pool) (found : Pool → UInt16 → Prop) : Prop :=
  ∀ i q, r.on p = (.ok i, q) → ∀ later : List Request, found (q.after later) i

theorem LeadsTo.imp {found found' : Pool → UInt16 → Prop} (h : r.LeadsTo p found)
    (himp : ∀ q i, found q i → found' q i) : r.LeadsTo p found' :=
  fun i q hrun later => himp _ _ (h i q hrun later)

/-- The number that is given leads to what was asked for, also when more was asked for afterwards. -/
theorem leadsTo_found (h : p.Consistent) (r : Request) : r.LeadsTo p r.Found := by
  intro i q hrun later
  have hgives : r.interning.Gives (q.after later) i := (h.done r).again i q hrun later
  have hq : q.Consistent := by
    have hleft := (r.precedes_on p).consistent h
    rwa [hrun] at hleft
  exact r.found_of_gives ((q.precedes_after later).consistent hq).faithful hgives

/-! ## §2  What is found -/

theorem Found.loadable_string {s : String} (h : (string s).Found q i) : q.loadable i = .ok (.string s) := by
  obtain ⟨t, hi, ht⟩ := h
  exact Pool.loadable_eq_ok.mpr (.string hi ht)

theorem Found.loadable_unitsOfText {s : String} (h : (stringUnits (Text.units s)).Found q i) :
    q.loadable i = .ok (.string s) := by
  obtain ⟨t, hi, ht⟩ := h
  rw [Entry.ofUnits, Text.ofUnits?_units] at ht
  exact Pool.loadable_eq_ok.mpr (.string hi ht)

theorem Found.loadable_units {us : List UInt16} (hus : ∀ s, Text.units s ≠ us) (h : (stringUnits us).Found q i) :
    q.loadable i = .ok (.utf16 us) := by
  obtain ⟨t, hi, ht⟩ := h
  have hnone : Text.ofUnits? us = none :=
    Option.eq_none_iff_forall_ne_some.mpr fun s hs => hus s (Text.units_of_ofUnits? hs)
  rw [Entry.ofUnits, hnone] at ht
  exact Pool.loadable_eq_ok.mpr (.utf16 hi ht)

theorem Found.loadable_methodType {descriptor : String} (h : (methodType descriptor).Found q i) :
    q.loadable i = .ok (.methodType descriptor) := by
  obtain ⟨t, hi, ht⟩ := h
  exact Pool.loadable_eq_ok.mpr (.methodType hi ht)

end Request

namespace Pool

variable {p : Pool}

/-- Names and constants that are given numbers on this pool are found under them. -/
structure Resolves (p : Pool) : Prop where
  className : ∀ name, (Request.className name).LeadsTo p fun q i => q.className i = .ok name
  nameAndType : ∀ name descriptor, (Request.nameAndType name descriptor).LeadsTo p fun q i =>
    q.nameAndType i = .ok (name, descriptor)
  fieldRef : ∀ m, (Request.fieldRef m).LeadsTo p fun q i =>
    q.member i = .ok (m, false) ∧ ∃ owner nt, q.entry? i = some (.fieldRef owner nt)
  methodRef : ∀ m ofInterface, (Request.methodRef m ofInterface).LeadsTo p fun q i =>
    q.member i = .ok (m, ofInterface) ∧
      ∃ owner nt, q.entry? i = some (if ofInterface then .interfaceMethodRef owner nt else .methodRef owner nt)
  string : ∀ s, (Request.string s).LeadsTo p fun q i => q.loadable i = .ok (.string s)
  /-- Of the units of a text the text is found. -/
  unitsOfText : ∀ s, (Request.stringUnits (Text.units s)).LeadsTo p fun q i => q.loadable i = .ok (.string s)
  /-- Units that no text has are found themselves. -/
  units : ∀ us, (∀ s, Text.units s ≠ us) →
    (Request.stringUnits us).LeadsTo p fun q i => q.loadable i = .ok (.utf16 us)
  methodType : ∀ descriptor, (Request.methodType descriptor).LeadsTo p fun q i =>
    q.loadable i = .ok (.methodType descriptor)
  dynamicCall : ∀ bootstrap name descriptor, (Request.dynamicCall bootstrap name descriptor).LeadsTo p fun q i =>
    q.dynamicCall i = .ok (bootstrap, name, descriptor)

/-- **What was given a number is found under it.** The pool may be any that is read, with whatever was asked of it
since. -/
theorem Initial.resolves (h : p.Initial) (before : List Request) : (p.after before).Resolves := by
  have hfound := Request.leadsTo_found ((p.precedes_after before).consistent h.consistent)
  exact {
    className := fun name => hfound (.className name)
    nameAndType := fun name descriptor => hfound (.nameAndType name descriptor)
    fieldRef := fun m => (hfound (.fieldRef m)).imp fun _ _ hm => hm.symm
    methodRef := fun m ofInterface => (hfound (.methodRef m ofInterface)).imp fun _ _ hm => hm.symm
    string := fun s => (hfound (.string s)).imp fun _ _ hs => hs.loadable_string
    unitsOfText := fun s => (hfound (.stringUnits (Text.units s))).imp fun _ _ hs => hs.loadable_unitsOfText
    units := fun us hus => (hfound (.stringUnits us)).imp fun _ _ hs => hs.loadable_units hus
    methodType := fun descriptor => (hfound (.methodType descriptor)).imp fun _ _ hd => hd.loadable_methodType
    dynamicCall := fun bootstrap name descriptor => hfound (.dynamicCall bootstrap name descriptor) }

/-- An entry that is not among those of a pool is added at its end. -/
theorem runOn_entry_of_notMem {es : List Entry} {e : Entry} (h : e ∉ es)
    (room : (ofEntries (es ++ [e])).size ≤ maxSlots) :
    (Interning.entry e).runOn (ofEntries es) = (.ok (UInt16.ofNat (ofEntries es).size), ofEntries (es ++ [e])) := by
  rw [ofEntries_concat, size_push] at room
  have hes : (ofEntries es).Consistent := consistent_ofEntries (Nat.le_of_add_right_le room)
  have hnone : (ofEntries es).first[e]? = none :=
    hes.first_eq_none_iff.mpr fun i hi => h (mem_of_found hi)
  rw [Interning.runOn_entry, hnone, if_pos room, ofEntries_concat]

/-- To a pool that holds the text twice a class is added whose name it does not hold. Then a class is asked for that has
this text for its name. Whatever is asked for afterwards, that name is found under the number that was given. -/
theorem resolves_twice : (twice.after [.entry (.classRef 9)]).Resolves ∧
    ∃ q, (Request.className "A").on (twice.after [.entry (.classRef 9)]) = (.ok 6, q) ∧
      ∀ later, Pool.className (q.after later) 6 = .ok "A" := by
  have hresolves := initial_twice.resolves [.entry (.classRef 9)]
  have hdangling : twice.after [.entry (.classRef 9)] = ofEntries [.long 1, .utf8 "A", .utf8 "A", .classRef 9] :=
    congrArg Prod.snd (runOn_entry_of_notMem (by simp) (by decide))
  rw [hdangling] at hresolves ⊢
  have hconsistent : (ofEntries [.long 1, .utf8 "A", .utf8 "A", .classRef 9]).Consistent :=
    consistent_ofEntries (by decide)
  have hfits : (Entry.utf8 "A").Fits := by
    show _ ≤ _
    decide
  have htext : (Interning.text "A").Gives (ofEntries [.long 1, .utf8 "A", .utf8 "A", .classRef 9]) 3 := by
    refine Interning.gives_text.mpr ⟨hfits, (hconsistent.first_iff _ _).mpr ⟨rfl, fun n hn => ?_⟩⟩
    by_contra hlt
    have hfront : n = 0 ∨ n = 1 ∨ n = 2 := by
      have hthree : (3 : UInt16).toNat = 3 := rfl
      omega
    rcases hfront with rfl | rfl | rfl <;> cases hn
  have hclass : (Request.className "A").on (ofEntries [.long 1, .utf8 "A", .utf8 "A", .classRef 9]) = (.ok 6, _) :=
    (Interning.runOn_bind_ok _ htext).trans (runOn_entry_of_notMem (by simp) (by decide))
  exact ⟨hresolves, _, hclass, hresolves.className "A" 6 _ hclass⟩

end Pool

end ClassFile
