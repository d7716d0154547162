import ClassFile.Proofs.Pool.Constants
/-!
# Why numbering fails

A pool has room for so many slots and a text for so many bytes. What was read with a pool stands in it already, so
the writer has little to ask for and little that can go wrong. This module says what is left, for names and for constants
that some pool `p` holds: the pool is full, or a text of `p` does not fit its length word in the form that the writer
gives it.

`m.Fails p q e` says that the computation fails, started on some pool that grew from `p`, and leaves `q`. The steps before
the failure were done, and what they gave they also give on `q` (§1). So statements about a failure need no pool but the
one that the record was read with and the one that is left.
-/

namespace ClassFile

namespace Interning

variable {α β : Type}

/-! ## §1  Failures -/

/-- Started on a pool that grew from `p`, the computation fails and leaves `q`. -/
def Fails (m : Interning α) (p q : Pool) (e : Error) : Prop :=
  ∃ p', p.Grows p' ∧ m.runOn p' = (.error e, q)

variable {p q : Pool} {e : Error}

theorem not_fails_pure {a : α} : ¬ (pure a : Interning α).Fails p q e := by
  rintro ⟨p', -, h⟩
  rw [runOn_pure] at h
  cases h

theorem eq_of_fails_fail {reason : Unencodable} (h : (fail reason : Interning α).Fails p q e) :
    e = .unencodable reason := by
  obtain ⟨p', -, h⟩ := h
  rw [runOn_fail, Prod.mk.injEq, Except.error.injEq] at h
  exact h.1.symm

theorem eq_of_fails_lift {x : Except Error α} (h : (liftM x : Interning α).Fails p q e) :
    x = .error e := by
  obtain ⟨p', -, h⟩ := h
  rw [runOn_lift, Prod.mk.injEq] at h
  exact h.1

/-- Either the first step fails, or it gives something and the second step fails. -/
theorem cases_of_fails_bind {x : Interning α} {f : α → Interning β} [hx : Steady x]
    [hf : ∀ a, Steady (f a)] (h : (x >>= f).Fails p q e) :
    x.Fails p q e ∨ ∃ a, x.Gives q a ∧ (f a).Fails p q e := by
  obtain ⟨p', hp', h⟩ := h
  rcases hrun : x.runOn p' with ⟨e' | a, p''⟩
  · rw [runOn_bind_error f hrun, Prod.mk.injEq, Except.error.injEq] at h
    obtain ⟨rfl, rfl⟩ := h
    exact .inl ⟨p', hp', hrun⟩
  · rw [runOn_bind_ok f hrun] at h
    have hgrows := hx.grows p'
    have hgrows' := (hf a).grows p''
    rw [hrun] at hgrows
    rw [h] at hgrows'
    exact .inr ⟨a, hx.repeats hrun hgrows', p'', hp'.trans hgrows, h⟩

theorem exists_of_fails_mapM {f : α → Interning β} [hf : ∀ a, Steady (f a)] {as : List α}
    (h : (as.mapM f).Fails p q e) : ∃ a ∈ as, (f a).Fails p q e := by
  induction as with
  | nil =>
      rw [List.mapM_nil] at h
      exact (not_fails_pure h).elim
  | cons a as ih =>
      rw [List.mapM_cons] at h
      rcases cases_of_fails_bind h with h | ⟨b, -, h⟩
      · exact ⟨a, List.mem_cons_self, h⟩
      rcases cases_of_fails_bind h with h | ⟨bs, -, h⟩
      · obtain ⟨a', ha', h⟩ := ih h
        exact ⟨a', List.mem_cons_of_mem a ha', h⟩
      · exact (not_fails_pure h).elim

theorem of_fails_count {what : Counted} {n : Nat} (h : (count what n).Fails p q e) :
    65535 < n ∧ e = .unencodable (.tooMany what n) := by
  rw [count] at h
  split at h
  · exact (not_fails_pure h).elim
  · rename_i hn
    exact ⟨Nat.lt_of_not_le hn, eq_of_fails_fail h⟩

/-- An entry is added unless it is there or no room is left for it. -/
theorem of_fails_entry {entry' : Entry} (h : (entry entry').Fails p q e) :
    p.first[entry']? = none ∧ Pool.maxSlots < q.size + entry'.width ∧
      e = .unencodable .poolFull := by
  obtain ⟨p', hp', h⟩ := h
  rw [runOn_entry] at h
  split at h
  · cases h
  · rename_i hnone
    split at h
    · cases h
    · rename_i room
      rw [Prod.mk.injEq, Except.error.injEq] at h
      obtain ⟨rfl, rfl⟩ := h
      refine ⟨?_, Nat.lt_of_not_le room, rfl⟩
      cases hfirst : p.first[entry']? with
      | none => rfl
      | some i =>
          rw [hp'.first hfirst] at hnone
          cases hnone

end Interning

/-! ## §2  The limits of a pool -/

namespace Pool

/-- The text is one of the pool's. -/
def HasText (p : Pool) (s : String) : Prop :=
  ∃ i, p.entry? i = some (.utf8 s)

theorem hasText_of_text {p : Pool} {i : UInt16} {s : String} (h : p.text i = .ok s) : p.HasText s :=
  ⟨i, text_eq_ok.mp h⟩

theorem hasText_of_className {p : Pool} {i : UInt16} {s : String} (h : p.className i = .ok s) :
    p.HasText s := by
  obtain ⟨t, -, hs⟩ := className_eq_ok.mp h
  exact hasText_of_text hs

/-- What can keep a writer that started with the pool `p` from giving numbers: the pool `q` that it made of `p` is full, or
a text that `p` was read with takes too many bytes when it is written. -/
inductive Exceeds (p q : Pool) : Error → Prop where
  | full (h : maxSlots ≤ q.size) : Exceeds p q (.unencodable .poolFull)
  | longText {s : String} (hs : p.HasText s) (long : ¬ (Entry.utf8 s).Fits) :
      Exceeds p q (.unencodable (.longText s.utf8ByteSize))
  | longUnits {i : UInt16} {us : List UInt16} (hus : p.entry? i = some (.utf16 us))
      (long : ¬ (Entry.utf16 us).Fits) : Exceeds p q (.unencodable (.longUnits us.length))

theorem Exceeds.inClass {p q : Pool} {e : Error} (h : p.Exceeds q e) (name : String) :
    e.inClass name = e := by
  cases h <;> rfl

open Interning

variable {p q : Pool} {e : Error}

theorem exceeds_of_fails_entry {entry' : Entry} (hwidth : entry'.width = 1)
    (h : (Interning.entry entry').Fails p q e) : p.Exceeds q e := by
  obtain ⟨-, hfull, rfl⟩ := of_fails_entry h
  rw [hwidth] at hfull
  exact .full (Nat.le_of_lt_succ hfull)

theorem WellFormed.not_fails_entry (wf : p.WellFormed) {entry' : Entry} {i : UInt16}
    (hi : p.entry? i = some entry') : ¬ (Interning.entry entry').Fails p q e := by
  intro h
  obtain ⟨hnone, -⟩ := of_fails_entry h
  obtain ⟨j, hj⟩ := wf.first_of_entry? hi
  rw [hnone] at hj
  cases hj

theorem exceeds_of_fails_text {s : String} (hs : p.HasText s) (h : (Interning.text s).Fails p q e) :
    p.Exceeds q e := by
  rw [Interning.text] at h
  split at h
  · exact exceeds_of_fails_entry rfl h
  · rename_i long
    rw [eq_of_fails_fail h]
    exact .longText hs long

theorem exceeds_of_fails_className {s : String} (hs : p.HasText s)
    (h : (Interning.className s).Fails p q e) : p.Exceeds q e := by
  rcases cases_of_fails_bind h with h | ⟨t, -, h⟩
  · exact exceeds_of_fails_text hs h
  · exact exceeds_of_fails_entry rfl h

theorem exceeds_of_fails_nameAndType {name descriptor : String} (hname : p.HasText name)
    (hdescriptor : p.HasText descriptor) (h : (Interning.nameAndType name descriptor).Fails p q e) :
    p.Exceeds q e := by
  rcases cases_of_fails_bind h with h | ⟨n, -, h⟩
  · exact exceeds_of_fails_text hname h
  rcases cases_of_fails_bind h with h | ⟨d, -, h⟩
  · exact exceeds_of_fails_text hdescriptor h
  · exact exceeds_of_fails_entry rfl h

theorem hasText_of_nameAndType {i : UInt16} {name descriptor : String}
    (h : p.nameAndType i = .ok (name, descriptor)) : p.HasText name ∧ p.HasText descriptor := by
  obtain ⟨n, d, -, hn, hd⟩ := nameAndType_eq_ok.mp h
  exact ⟨hasText_of_text hn, hasText_of_text hd⟩

theorem hasText_of_member {i : UInt16} {m : MemberRef} {ofInterface : Bool}
    (h : p.member i = .ok (m, ofInterface)) :
    p.HasText m.owner ∧ p.HasText m.name ∧ p.HasText m.descriptor := by
  obtain ⟨owner, nt, -, -, -, howner, hnt⟩ := member_eq_ok.mp h
  exact ⟨hasText_of_className howner, hasText_of_nameAndType hnt⟩

theorem exceeds_of_fails_fieldRef {i : UInt16} {m : MemberRef} {ofInterface : Bool}
    (hm : p.member i = .ok (m, ofInterface)) (h : (Interning.fieldRef m).Fails p q e) :
    p.Exceeds q e := by
  obtain ⟨howner, hname, hdescriptor⟩ := hasText_of_member hm
  rcases cases_of_fails_bind h with h | ⟨o, -, h⟩
  · exact exceeds_of_fails_className howner h
  rcases cases_of_fails_bind h with h | ⟨nt, -, h⟩
  · exact exceeds_of_fails_nameAndType hname hdescriptor h
  · exact exceeds_of_fails_entry rfl h

theorem exceeds_of_fails_methodRef {i : UInt16} {m : MemberRef} {ofInterface b : Bool}
    (hm : p.member i = .ok (m, ofInterface)) (h : (Interning.methodRef m b).Fails p q e) :
    p.Exceeds q e := by
  obtain ⟨howner, hname, hdescriptor⟩ := hasText_of_member hm
  rcases cases_of_fails_bind h with h | ⟨o, -, h⟩
  · exact exceeds_of_fails_className howner h
  rcases cases_of_fails_bind h with h | ⟨nt, -, h⟩
  · exact exceeds_of_fails_nameAndType hname hdescriptor h
  · refine exceeds_of_fails_entry ?_ h
    cases b <;> rfl

theorem exceeds_of_fails_dynamicCall {i bootstrap : UInt16} {name descriptor : String}
    (hcall : p.dynamicCall i = .ok (bootstrap, name, descriptor))
    (h : (Interning.dynamicCall bootstrap name descriptor).Fails p q e) : p.Exceeds q e := by
  obtain ⟨nt, -, hnt⟩ := dynamicCall_eq_ok.mp hcall
  obtain ⟨hname, hdescriptor⟩ := hasText_of_nameAndType hnt
  rcases cases_of_fails_bind h with h | ⟨nt, -, h⟩
  · exact exceeds_of_fails_nameAndType hname hdescriptor h
  · exact exceeds_of_fails_entry rfl h

/-! ## §3  Constants -/

theorem WellFormed.exceeds_of_fails_units (wf : p.WellFormed) {i : UInt16} {us : List UInt16}
    (hus : p.entry? i = some (.utf16 us)) (h : (Interning.units us).Fails p q e) :
    p.Exceeds q e := by
  simp only [Interning.units, wf.ofUnits_of_entry? hus] at h
  split at h
  · exact exceeds_of_fails_entry rfl h
  · rename_i long
    rw [eq_of_fails_fail h]
    exact .longUnits hus long

theorem WellFormed.exceeds_of_fails_constant (wf : p.WellFormed) {i : UInt16} {c : Constant}
    (hc : p.Loads i c) (h : (Interning.constant c).Fails p q e) : p.Exceeds q e := by
  cases hc with
  | int hi => exact exceeds_of_fails_entry rfl h
  | float hi => exact exceeds_of_fails_entry rfl h
  | long hi => exact (wf.not_fails_entry hi h).elim
  | double hi => exact (wf.not_fails_entry hi h).elim
  | string hi hs =>
      rcases cases_of_fails_bind h with h | ⟨t, -, h⟩
      · exact exceeds_of_fails_text ⟨_, hs⟩ h
      · exact exceeds_of_fails_entry rfl h
  | utf16 hi hus =>
      rcases cases_of_fails_bind h with h | ⟨t, -, h⟩
      · exact wf.exceeds_of_fails_units hus h
      · exact exceeds_of_fails_entry rfl h
  | classRef hi hs => exact exceeds_of_fails_className ⟨_, hs⟩ h
  | methodType hi hs =>
      rcases cases_of_fails_bind h with h | ⟨t, -, h⟩
      · exact exceeds_of_fails_text ⟨_, hs⟩ h
      · exact exceeds_of_fails_entry rfl h
  | handle hi => exact (not_fails_pure h).elim
  | dynamic hi => exact (not_fails_pure h).elim

/-- A constant that was read under a tag fits that tag. -/
theorem WellFormed.exceeds_of_fails_constantIndex (wf : p.WellFormed) {tag : UInt8} {i : UInt16}
    {c : Constant} (hc : p.elementConstant tag i = .ok c)
    (h : (ElementValue.constantIndex tag c).Fails p q e) : p.Exceeds q e := by
  obtain ⟨hsettled, entry', hi, htag⟩ := wf.elementConstant_eq_ok.mp hc
  cases htag with
  | string s => exact exceeds_of_fails_text ⟨i, hi⟩ h
  | utf16 us =>
      -- The constant stands for itself, so its units make up no text and its entry is one of units.
      have hunits : Text.ofUnits? us = none := by
        cases hus : Text.ofUnits? us with
        | none => rfl
        | some s => simp [Constant.settled, hus] at hsettled
      rw [Entry.ofUnits, hunits] at hi
      exact wf.exceeds_of_fails_units hi h
  | int hinteger v =>
      rw [ElementValue.constantIndex, if_pos hinteger] at h
      exact exceeds_of_fails_entry rfl h
  | long v => exact (wf.not_fails_entry hi h).elim
  | float v => exact exceeds_of_fails_entry rfl h
  | double v => exact (wf.not_fails_entry hi h).elim

end Pool

end ClassFile
