import ClassFile.Pool.Format
import ClassFile.Pool.Interning
import Mathlib.Algebra.Ring.Nat
import Mathlib.Data.List.Induction
import Mathlib.Data.Nat.Find
/-!
# Pools that grow

Every pool comes about by adding entries to the empty one, and it is only ever added to. What follows from this
is what the rest of the library relies on: a number that was found leads to the entry that was asked
for (§2), and it is still the number of that entry in every pool that comes later (§3).

A pool has three sides: slots hold entries, a table finds the smallest number of an entry, and numbers have 16 bits. What
keeps the three together is the invariant `Consistent`. Adding an entry for which there is room keeps it, whatever the
entry is.

There are two orders "came later". `Precedes` says that entries were added for which there was room. `Grows` says also
that they are ones that the writer may add, so that texts fit their length word.
-/

namespace ClassFile

/-! ## §1  Entries that can be added -/

namespace Entry

/-- Units that make up a text are not kept as units. -/
def Sound : Entry → Prop
  | .utf16 us => Text.ofUnits? us = none
  | _ => True

/-- An encoded text fits the 16 bits of its length. -/
def Fits : Entry → Prop
  | .utf8 s => (Text.ModifiedUtf8.encodeString s).length ≤ Interning.maxTextBytes
  | .utf16 us => (Text.ModifiedUtf8.encode us).length ≤ Interning.maxTextBytes
  | _ => True

/-- The entry of a unit sequence: a text if it is one. -/
def ofUnits (us : List UInt16) : Entry :=
  match Text.ofUnits? us with
  | some s => .utf8 s
  | none => .utf16 us

theorem sound_ofUnits (us : List UInt16) : (ofUnits us).Sound := by
  rw [ofUnits]
  split
  · trivial
  · assumption

theorem width_ofUnits (us : List UInt16) : (ofUnits us).width = 1 := by
  rw [ofUnits]
  split <;> rfl

theorem width_pos (e : Entry) : 0 < e.width := by
  rw [width]
  split <;> decide

/-- An empty slot stands behind a wide entry and nowhere else. -/
theorem slots_gap_iff (e : Entry) (n : Nat) :
    e.slots[n + 1]? = some none ↔ ∃ e' : Entry, e.slots[n]? = some (some e') ∧ e'.isWide = true := by
  rw [slots]
  split
  · rename_i hwide
    rcases n with _ | _ | n
    · simpa using hwide
    · simp
    · simp
  · rename_i hnarrow
    cases n with
    | zero => simpa using hnarrow
    | succ n => simp

theorem slots_eq_some_iff (e e' : Entry) (n : Nat) :
    e.slots[n]? = some (some e') ↔ n = 0 ∧ e' = e := by
  rw [slots]
  split
  · rcases n with _ | _ | n <;> simp [eq_comm]
  · cases n <;> simp [eq_comm]

end Entry

namespace Pool

/-- The pool with the given entries, added one after the other. -/
def ofEntries (es : List Entry) : Pool := es.foldl push empty

theorem ofEntries_concat (es : List Entry) (e : Entry) :
    ofEntries (es ++ [e]) = (ofEntries es).push e := by
  simp [ofEntries]

theorem first_push (p : Pool) (e : Entry) :
    (p.push e).first = p.first.insertIfNew e (UInt16.ofNat p.size) := rfl

theorem size_push (p : Pool) (e : Entry) : (p.push e).size = p.size + e.width := by
  have h := congrArg List.length (slots_push p e)
  simpa [size] using h

theorem slots_ofEntries (es : List Entry) :
    (ofEntries es).slots.toList = none :: es.flatMap Entry.slots := by
  induction es using List.reverseRecOn with
  | nil => rfl
  | append_singleton es e ih =>
      rw [ofEntries_concat, slots_push, ih]
      simp

theorem filterMap_slots (es : List Entry) : (ofEntries es).slots.toList.filterMap id = es := by
  have hone (e : Entry) : e.slots.filterMap id = [e] := by
    rw [Entry.slots]
    split <;> rfl
  rw [slots_ofEntries, List.filterMap_cons_none rfl, List.filterMap_flatMap]
  simp only [hone, List.flatMap_singleton']

theorem size_ofEntries (es : List Entry) :
    (ofEntries es).size = 1 + (es.map Entry.width).sum := by
  induction es using List.reverseRecOn with
  | nil => rfl
  | append_singleton es e ih =>
      rw [ofEntries_concat, size_push, ih]
      simp [Nat.add_assoc]

/-! ## §2  Slots, table and numbers -/

theorem entry?_eq (p : Pool) (i : UInt16) : p.entry? i = p.slots.toList[i.toNat]?.join := by
  simp [ entry?]

theorem entry?_eq_some {p : Pool} {i : UInt16} {e : Entry} :
    p.entry? i = some e ↔ p.slots.toList[i.toNat]? = some (some e) := by
  rw [entry?_eq, Option.join_eq_some_iff]

theorem length_slots (p : Pool) : p.slots.toList.length = p.size := by
  simp [size]

theorem lt_size_of_slot {p : Pool} {n : Nat} {slot : Option Entry} (h : p.slots.toList[n]? = some slot) :
    n < p.size := by
  obtain ⟨hn, -⟩ := List.getElem?_eq_some_iff.mp h
  rwa [length_slots] at hn

theorem lt_size_of_found {p : Pool} {i : UInt16} {e : Entry} (h : p.entry? i = some e) : i.toNat < p.size :=
  lt_size_of_slot (entry?_eq_some.mp h)

theorem slot_push (p : Pool) (e : Entry) (n : Nat) :
    (p.push e).slots.toList[n]? = if n < p.size then p.slots.toList[n]? else e.slots[n - p.size]? := by
  rw [slots_push, List.getElem?_append, length_slots]

theorem entry?_push_of_lt {p : Pool} {i : UInt16} (e : Entry) (h : i.toNat < p.size) :
    Pool.entry? (p.push e) i = p.entry? i := by
  rw [entry?_eq, entry?_eq, slot_push, if_pos h]

theorem mem_slots (e e' : Entry) : some e ∈ e'.slots ↔ e = e' := by
  rw [Entry.slots]
  split <;> simp

theorem mem_of_found {es : List Entry} {e : Entry} {i : UInt16}
    (h : Pool.entry? (ofEntries es) i = some e) : e ∈ es := by
  rw [entry?_eq, Option.join_eq_some_iff] at h
  have hmem := List.mem_of_getElem? h
  rw [slots_ofEntries, List.mem_cons, List.mem_flatMap] at hmem
  rcases hmem with hnone | ⟨e', he', hslot⟩
  · cases hnone
  · rw [mem_slots] at hslot
    rw [hslot]
    exact he'

theorem first_of_mem {es : List Entry} {e : Entry} (h : e ∈ es) :
    ∃ i, (ofEntries es).first[e]? = some i := by
  induction es using List.reverseRecOn with
  | nil => simp at h
  | append_singleton es last ih =>
      rw [ofEntries_concat, first_push, Std.HashMap.getElem?_insertIfNew]
      split
      · exact ⟨_, rfl⟩
      · rename_i hnew
        rcases List.mem_append.mp h with hes | hlast
        · exact ih hes
        · rw [List.mem_singleton] at hlast
          subst hlast
          simp only [beq_self_eq_true, true_and, not_not] at hnew
          exact ⟨_, Std.HashMap.getElem?_eq_some_getElem hnew⟩

theorem entry?_zero (es : List Entry) : Pool.entry? (ofEntries es) 0 = none := by
  simp [entry?_eq, slots_ofEntries]

section Consistent

variable {p : Pool} {e : Entry} {i : UInt16}

/-- Slots, table and numbers of a pool agree. -/
structure Consistent (p : Pool) : Prop where
  size_le : p.size ≤ maxSlots
  zero : p.slots.toList[0]? = some none
  /-- A slot is empty if and only if a wide entry stands in front of it. -/
  gap_iff : ∀ n : Nat, p.slots.toList[n + 1]? = some none ↔
    ∃ e : Entry, p.slots.toList[n]? = some (some e) ∧ e.isWide = true
  /-- The table finds the smallest number of each entry that is there, and nothing else. -/
  first_iff : ∀ (e : Entry) (i : UInt16), p.first[e]? = some i ↔
    p.entry? i = some e ∧ ∀ n : Nat, p.slots.toList[n]? = some (some e) → i.toNat ≤ n

theorem consistent_empty : Consistent empty where
  size_le := by decide
  zero := rfl
  gap_iff n := by
    have hslots : empty.slots.toList = [none] := rfl
    cases n <;> simp [hslots]
  first_iff e i := by
    have hslots : empty.slots.toList = [none] := rfl
    have hfirst : empty.first = ∅ := rfl
    rw [entry?_eq_some, hslots, hfirst]
    cases i.toNat <;> simp

/-- An entry in some slot is found. -/
theorem Consistent.exists_first (h : p.Consistent) {n : Nat} (hn : p.slots.toList[n]? = some (some e)) :
    ∃ i, p.first[e]? = some i := by
  have hex : ∃ n, p.slots.toList[n]? = some (some e) := ⟨n, hn⟩
  have hfind := Nat.find_spec hex
  have hlt := lt_size_of_slot hfind
  have hsize := h.size_le
  have hi : (UInt16.ofNat (Nat.find hex)).toNat = Nat.find hex :=
    UInt16.toNat_ofNat_of_lt' (Nat.lt_of_lt_of_le hlt (Nat.le_trans hsize (by decide)))
  refine ⟨UInt16.ofNat (Nat.find hex), (h.first_iff e _).mpr ⟨?_, fun m hm => ?_⟩⟩
  · rw [entry?_eq_some, hi]
    exact hfind
  · rw [hi]
    exact Nat.find_min' hex hm

theorem Consistent.size_pos (h : p.Consistent) : 0 < p.size :=
  lt_size_of_slot h.zero

theorem slot_push_eq_some (p : Pool) (e e' : Entry) (n : Nat) :
    (p.push e).slots.toList[n]? = some (some e') ↔
      p.slots.toList[n]? = some (some e') ∨ n = p.size ∧ e' = e := by
  rw [slot_push]
  split
  · rename_i hlt
    exact ⟨.inl, fun h => h.resolve_right fun h => Nat.ne_of_lt hlt h.1⟩
  · rename_i hge
    have hnone : p.slots.toList[n]? = none :=
      List.getElem?_eq_none (by rw [length_slots]; exact Nat.le_of_not_lt hge)
    rw [e.slots_eq_some_iff, hnone]
    have heq : n - p.size = 0 ↔ n = p.size := by omega
    rw [heq]
    exact ⟨.inr, fun h => h.resolve_left nofun⟩

/-- An entry that is not there gets the number of the new slot. -/
theorem Consistent.first_push_of_absent (h : p.Consistent) (room : p.size < maxSlots) (hnew : e ∉ p.first) :
    (p.push e).first[e]? = some i ↔ Pool.entry? (p.push e) i = some e ∧
      ∀ n : Nat, (p.push e).slots.toList[n]? = some (some e) → i.toNat ≤ n := by
  have hnumber : (UInt16.ofNat p.size).toNat = p.size :=
    UInt16.toNat_ofNat_of_lt' (Nat.lt_trans room (by decide))
  have habsent (n : Nat) : p.slots.toList[n]? ≠ some (some e) := fun hn => by
    obtain ⟨j, hj⟩ := h.exists_first hn
    exact hnew (Std.HashMap.mem_iff_isSome_getElem?.mpr (by rw [hj]; rfl))
  rw [first_push, Std.HashMap.getElem?_insertIfNew, if_pos ⟨beq_self_eq_true e, hnew⟩, entry?_eq_some]
  simp only [slot_push_eq_some, habsent, false_or, and_true]
  constructor
  · intro hi
    rw [← Option.some.inj hi, hnumber]
    exact ⟨rfl, fun n hn => Nat.le_of_eq hn.symm⟩
  · rintro ⟨hi, -⟩
    exact congrArg some (UInt16.toNat_inj.mp (hnumber.trans hi.symm))

/-- An entry that is there keeps its number, and the new slot matters to no other one. -/
theorem Consistent.first_push_of_found (h : p.Consistent) {e' : Entry} (hold : e' = e → e ∈ p.first) :
    (p.push e).first[e']? = some i ↔ Pool.entry? (p.push e) i = some e' ∧
      ∀ n : Nat, (p.push e).slots.toList[n]? = some (some e') → i.toNat ≤ n := by
  rw [first_push, Std.HashMap.getElem?_insertIfNew,
    if_neg fun hnew => hnew.2 (hold (beq_iff_eq.mp hnew.1).symm), h.first_iff, entry?_eq_some, entry?_eq_some]
  simp only [slot_push_eq_some]
  constructor
  · rintro ⟨hi, hmin⟩
    refine ⟨.inl hi, ?_⟩
    rintro n (hn | ⟨rfl, -⟩)
    · exact hmin n hn
    · exact Nat.le_of_lt (lt_size_of_slot hi)
  · rintro ⟨hi | ⟨hsize, rfl⟩, hmin⟩
    · exact ⟨hi, fun n hn => hmin n (.inl hn)⟩
    · -- The number is not that of the new slot, since the entry stands in front of it.
      obtain ⟨hj, -⟩ := (h.first_iff e' _).mp (Std.HashMap.getElem?_eq_some_getElem (hold rfl))
      rw [entry?_eq_some] at hj
      have hle := hmin _ (.inl hj)
      have hlt := lt_size_of_slot hj
      omega

/-- Adding an entry at the end keeps the invariant. -/
theorem Consistent.push (h : p.Consistent) (room : p.size + e.width ≤ maxSlots) : (p.push e).Consistent where
  size_le := by rwa [size_push]
  zero := by
    rw [slot_push, if_pos h.size_pos]
    exact h.zero
  gap_iff n := by
    rw [slot_push, slot_push]
    rcases Nat.lt_trichotomy (n + 1) p.size with hlt | heq | hgt
    · rw [if_pos hlt, if_pos (by omega)]
      exact h.gap_iff n
    · -- The slot behind the last one is that of the new entry, so the last one holds nothing wide.
      have hnarrow := h.gap_iff n
      rw [List.getElem?_eq_none (by rw [length_slots, heq])] at hnarrow
      rw [if_neg (by omega), if_pos (by omega), heq, Nat.sub_self, Entry.slots]
      constructor
      · intro hnone
        split at hnone <;> cases hnone
      · intro hwide
        cases hnarrow.mpr hwide
    · rw [if_neg (by omega), if_neg (by omega), Nat.sub_add_comm (by omega)]
      exact e.slots_gap_iff (n - p.size)
  first_iff e' i := by
    have hwidth := e.width_pos
    by_cases hold : e' = e → e ∈ p.first
    · exact h.first_push_of_found hold
    · obtain ⟨rfl, hnew⟩ := Classical.not_imp.mp hold
      exact h.first_push_of_absent (by omega) hnew

theorem consistent_ofEntries {es : List Entry} (h : (ofEntries es).size ≤ maxSlots) :
    (ofEntries es).Consistent := by
  induction es using List.reverseRecOn with
  | nil => exact consistent_empty
  | append_singleton es e ih =>
      rw [ofEntries_concat] at h ⊢
      rw [size_push] at h
      exact (ih (Nat.le_of_add_right_le h)).push h

/-- The number that is found for an entry leads to it. -/
def Faithful (p : Pool) : Prop :=
  ∀ (e : Entry) (i : UInt16), p.first[e]? = some i → p.entry? i = some e

theorem Consistent.faithful (h : p.Consistent) : p.Faithful :=
  fun e i hi => ((h.first_iff e i).mp hi).1

theorem Consistent.first_eq_none_iff (h : p.Consistent) :
    p.first[e]? = none ↔ ∀ i, p.entry? i ≠ some e := by
  constructor
  · intro hnone i hi
    obtain ⟨j, hj⟩ := h.exists_first (entry?_eq_some.mp hi)
    rw [hnone] at hj
    cases hj
  · intro habsent
    cases hfirst : p.first[e]? with
    | none => rfl
    | some i => exact absurd (h.faithful e i hfirst) (habsent i)

end Consistent

/-! ## §3  Later pools -/

/-- The second pool comes from the first one by adding entries for which there was room. -/
inductive Precedes : Pool → Pool → Prop where
  | refl (p : Pool) : Precedes p p
  | push {p q : Pool} {e : Entry} (before : Precedes p q) (room : q.size + e.width ≤ maxSlots) :
      Precedes p (q.push e)

theorem Precedes.trans {p q r : Pool} (h : Precedes p q) (h' : Precedes q r) : Precedes p r := by
  induction h' with
  | refl => exact h
  | push _ room ih => exact .push ih room

theorem Precedes.size_le {p q : Pool} (h : Precedes p q) : p.size ≤ q.size := by
  induction h with
  | refl => exact Nat.le_refl _
  | push _ _ ih =>
      rw [size_push]
      exact Nat.le_trans ih (Nat.le_add_right _ _)

/-- What stood in front stays there. -/
theorem Precedes.slots_prefix {p q : Pool} (h : Precedes p q) : p.slots.toList <+: q.slots.toList := by
  induction h with
  | refl => exact List.prefix_refl _
  | push _ _ ih =>
      rw [slots_push]
      exact ih.trans (List.prefix_append _ _)

/-- A number that was found stays. -/
theorem Precedes.first {p q : Pool} (h : Precedes p q) {e : Entry} {i : UInt16}
    (hi : p.first[e]? = some i) : q.first[e]? = some i := by
  induction h with
  | refl => exact hi
  | push _ _ ih =>
      rw [first_push, Std.HashMap.getElem?_insertIfNew, if_neg]
      · exact ih
      · rintro ⟨heq, hnew⟩
        rw [beq_iff_eq] at heq
        subst heq
        rw [Std.HashMap.getElem?_eq_none hnew] at ih
        cases ih

theorem Precedes.entry? {p q : Pool} (h : Precedes p q) {e : Entry} {i : UInt16}
    (hi : p.entry? i = some e) : q.entry? i = some e := by
  induction h with
  | refl => exact hi
  | push _ _ ih =>
      rw [entry?_push_of_lt _ (lt_size_of_found ih)]
      exact ih

/-- What keeps the invariant when an entry is added keeps it for as many as are added. -/
theorem Precedes.consistent {p q : Pool} (h : Precedes p q) (hp : p.Consistent) : q.Consistent := by
  induction h with
  | refl => exact hp
  | push _ room ih => exact ih.push room

/-- The second pool comes from the first one by adding entries that the writer may add. -/
inductive Grows : Pool → Pool → Prop where
  | refl (p : Pool) : Grows p p
  | push {p q : Pool} {e : Entry} (before : Grows p q) (sound : e.Sound) (fits : e.Fits)
      (room : q.size + e.width ≤ maxSlots) : Grows p (q.push e)

theorem Grows.precedes {p q : Pool} (h : Grows p q) : Precedes p q := by
  induction h with
  | refl => exact .refl _
  | push _ _ _ room ih => exact .push ih room

theorem Grows.trans {p q r : Pool} (h : Grows p q) (h' : Grows q r) : Grows p r := by
  induction h' with
  | refl => exact h
  | push _ sound fits room ih => exact .push ih sound fits room

theorem Grows.size_le {p q : Pool} (h : Grows p q) : p.size ≤ q.size :=
  h.precedes.size_le

/-- A pool that grew to itself was not added to in between. -/
theorem Grows.antisymm {p q : Pool} (h : Grows p q) (h' : Grows q p) : q = p := by
  cases h with
  | refl => rfl
  | @push r e before _ _ _ =>
      have hpr := before.size_le
      have hqp := h'.size_le
      have hw := e.width_pos
      rw [size_push] at hqp
      omega

theorem Grows.slots_prefix {p q : Pool} (h : Grows p q) : p.slots.toList <+: q.slots.toList :=
  h.precedes.slots_prefix

theorem Grows.first {p q : Pool} (h : Grows p q) {e : Entry} {i : UInt16}
    (hi : p.first[e]? = some i) : q.first[e]? = some i :=
  h.precedes.first hi

theorem Grows.entry? {p q : Pool} (h : Grows p q) {e : Entry} {i : UInt16}
    (hi : p.entry? i = some e) : q.entry? i = some e :=
  h.precedes.entry? hi

/-! ## §4  Well-formed pools -/

/-- The pool comes from the empty one, and its slots can be numbered. -/
structure WellFormed (p : Pool) : Prop where
  built : ∃ es, p = ofEntries es ∧ ∀ e ∈ es, e.Sound
  size_le : p.size ≤ maxSlots

/-- Every text of the pool fits its length word. -/
def TextsFit (p : Pool) : Prop :=
  ∀ i e, p.entry? i = some e → e.Fits

theorem wellFormed_empty : WellFormed empty :=
  ⟨⟨[], rfl, by simp⟩, by decide⟩

theorem WellFormed.consistent {p : Pool} (h : p.WellFormed) : p.Consistent := by
  obtain ⟨es, rfl, -⟩ := h.built
  exact consistent_ofEntries h.size_le

theorem WellFormed.faithful {p : Pool} (h : p.WellFormed) : p.Faithful :=
  h.consistent.faithful

theorem WellFormed.entry?_of_first {p : Pool} (h : p.WellFormed) {e : Entry} {i : UInt16}
    (hi : p.first[e]? = some i) : p.entry? i = some e :=
  h.faithful e i hi

theorem WellFormed.first_of_entry? {p : Pool} (h : p.WellFormed) {e : Entry} {i : UInt16}
    (hi : p.entry? i = some e) : ∃ j, p.first[e]? = some j :=
  h.consistent.exists_first (entry?_eq_some.mp hi)

theorem WellFormed.sound {p : Pool} (h : p.WellFormed) {e : Entry} {i : UInt16}
    (hi : p.entry? i = some e) : e.Sound := by
  obtain ⟨es, rfl, hes⟩ := h.built
  exact hes e (mem_of_found hi)

theorem WellFormed.entry?_zero {p : Pool} (h : p.WellFormed) : p.entry? 0 = none := by
  obtain ⟨es, rfl, -⟩ := h.built
  exact Pool.entry?_zero es

theorem WellFormed.push {p : Pool} (h : p.WellFormed) {e : Entry} (sound : e.Sound)
    (room : p.size + e.width ≤ maxSlots) : (p.push e).WellFormed := by
  obtain ⟨es, rfl, hes⟩ := h.built
  refine ⟨⟨es ++ [e], (ofEntries_concat es e).symm, ?_⟩, by rwa [size_push]⟩
  intro e' he'
  rcases List.mem_append.mp he' with he' | he'
  · exact hes e' he'
  · rw [List.mem_singleton] at he'
    rw [he']
    exact sound

theorem TextsFit.push {p : Pool} (h : p.TextsFit) {e : Entry} (fits : e.Fits) :
    (p.push e).TextsFit := by
  intro i e' hi
  rw [entry?_eq, slots_push, Option.join_eq_some_iff, List.getElem?_append] at hi
  split at hi
  · exact h i e' (by rw [entry?_eq, hi]; rfl)
  · have hmem := List.mem_of_getElem? hi
    rw [mem_slots] at hmem
    rw [hmem]
    exact fits

theorem Grows.wellFormed {p q : Pool} (h : Grows p q) (hp : p.WellFormed) : q.WellFormed := by
  induction h with
  | refl => exact hp
  | push _ sound _ room ih => exact ih.push sound room

theorem Grows.textsFit {p q : Pool} (h : Grows p q) (hp : p.TextsFit) : q.TextsFit := by
  induction h with
  | refl => exact hp
  | push _ _ fits _ ih => exact ih.push fits

/-! ## §5  Pools without repetitions -/

/-- No two numbers lead to equal entries. -/
def Distinct (q : Pool) : Prop :=
  ∀ i j e, q.entry? i = some e → q.entry? j = some e → i = j

/-- What every pool has that is read from a file whose entries are all different and have texts in shortest form. -/
structure Canonical (q : Pool) : Prop where
  wellFormed : q.WellFormed
  textsFit : q.TextsFit
  distinct : q.Distinct

theorem eq_of_nodup_slots {slots : List (Option Entry)} (h : (slots.filterMap id).Nodup) {i j : Nat}
    {e : Entry} (hi : slots[i]? = some (some e)) (hj : slots[j]? = some (some e)) : i = j := by
  induction slots generalizing i j with
  | nil => cases hi
  | cons slot slots ih =>
      have htail : (slots.filterMap id).Nodup := by
        cases slot with
        | none => exact h
        | some e' => exact (List.nodup_cons.mp h).2
      -- The entry in front stands nowhere behind.
      have hnew {k : Nat} (hhead : slot = some e) (hk : slots[k]? = some (some e)) : False := by
        subst hhead
        exact (List.nodup_cons.mp h).1
          (List.mem_filterMap.mpr ⟨some e, List.mem_of_getElem? hk, rfl⟩)
      cases i with
      | zero =>
          cases j with
          | zero => rfl
          | succ j => exact (hnew (Option.some.inj hi) hj).elim
      | succ i =>
          cases j with
          | zero => exact (hnew (Option.some.inj hj) hi).elim
          | succ j => rw [ih htail hi hj]

theorem distinct_ofEntries {es : List Entry} (h : es.Nodup) : Distinct (ofEntries es) := by
  intro i j e hi hj
  rw [entry?_eq, Option.join_eq_some_iff] at hi hj
  rw [← filterMap_slots es] at h
  exact UInt16.toNat_inj.mp (eq_of_nodup_slots h hi hj)

/-- Different entries whose texts fit make a canonical pool. -/
theorem canonical_ofEntries {es : List Entry} (hes : ∀ e ∈ es, e.Sound ∧ e.Fits) (hnodup : es.Nodup)
    (hsize : (ofEntries es).size ≤ maxSlots) : Canonical (ofEntries es) where
  wellFormed := ⟨⟨es, rfl, fun e he => (hes e he).1⟩, hsize⟩
  textsFit := fun _ e hi => (hes e (mem_of_found hi)).2
  distinct := distinct_ofEntries hnodup

end Pool

end ClassFile
