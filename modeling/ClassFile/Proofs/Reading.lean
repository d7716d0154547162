import ClassFile.Cursor
import ClassFile.Proofs.Words
import Mathlib.Data.List.Forall2
/-!
# What a reader consumes

A reader that succeeds has passed over the bytes in front of it, and what it says depends on nothing else. Two
forms of this are used all through the library. `r c = .ok (a, c')` is an equation about one run, which
the lemmas of §3 and §4 take apart into the bytes that were passed. `r.Takes o bs a` says the converse for
every run: whatever stands behind `bs`, reading at offset `o` consumes `bs` and gives `a`.

§1 is computations without a cursor, §2 the cursor, §3 the single steps, §4 lists of values.
-/

namespace ClassFile

open Bytes (ofUInt16 ofUInt32 ofUInt64)

/-! ## §1  Computations that may fail -/

section Except

variable {ε α β : Type}

theorem except_bind_eq_ok {x : Except ε α} {f : α → Except ε β} {b : β} :
    (x >>= f) = .ok b ↔ ∃ a, x = .ok a ∧ f a = .ok b := by
  cases x <;> simp [bind, Except.bind]

theorem except_pure_eq_ok {a b : α} : (pure a : Except ε α) = .ok b ↔ a = b := by
  simp [pure, Except.pure]

theorem except_map_eq_ok {x : Except ε α} {f : α → β} {b : β} :
    x.map f = .ok b ↔ ∃ a, x = .ok a ∧ f a = b := by
  cases x <;> simp [Except.map]

theorem except_mapM_eq_ok {f : α → Except ε β} {as : List α} {bs : List β} :
    as.mapM f = .ok bs ↔ List.Forall₂ (fun a b => f a = .ok b) as bs := by
  induction as generalizing bs with
  | nil => rw [List.mapM_nil, except_pure_eq_ok, List.forall₂_nil_left_iff, eq_comm]
  | cons a as ih =>
      rw [List.mapM_cons, except_bind_eq_ok]
      simp only [except_bind_eq_ok, except_pure_eq_ok, ih]
      constructor
      · rintro ⟨b, hb, bs, hbs, rfl⟩
        exact .cons hb hbs
      · rintro (_ | ⟨hb, hbs⟩)
        exact ⟨_, hb, _, hbs, rfl⟩

theorem except_bind_eq_error {x : Except ε α} {f : α → Except ε β} {e : ε} :
    (x >>= f) = .error e ↔ x = .error e ∨ ∃ a, x = .ok a ∧ f a = .error e := by
  cases x <;> simp [bind, Except.bind]

theorem except_map_eq_error {x : Except ε α} {f : α → β} {e : ε} : x.map f = .error e ↔ x = .error e := by
  cases x <;> simp [Except.map]

theorem exists_of_except_mapM_eq_error {f : α → Except ε β} {as : List α} {e : ε}
    (h : as.mapM f = .error e) : ∃ a ∈ as, f a = .error e := by
  induction as with
  | nil => cases h
  | cons a as ih =>
      rw [List.mapM_cons] at h
      rcases except_bind_eq_error.mp h with h | ⟨b, -, h⟩
      · exact ⟨a, List.mem_cons_self, h⟩
      rcases except_bind_eq_error.mp h with h | ⟨bs, -, h⟩
      · obtain ⟨a', ha', h⟩ := ih h
        exact ⟨a', List.mem_cons_of_mem a ha', h⟩
      · cases h

/-- A list with a member that fails has a first one, at that member or in front of it. -/
theorem except_mapM_eq_error_of_append {f : α → Except ε β} (front behind : List α) {a : α} {e : ε}
    (h : f a = .error e) : ∃ e', (front ++ a :: behind).mapM f = .error e' ∧
      (e' = e ∨ ∃ b ∈ front, f b = .error e') := by
  rw [List.mapM_append, List.mapM_cons, h]
  cases hfront : front.mapM f with
  | error e' => exact ⟨e', rfl, .inr (exists_of_except_mapM_eq_error hfront)⟩
  | ok bs => exact ⟨e, rfl, .inl rfl⟩

/-- Of two lists side by side, a member of one stands beside a member of the other. -/
theorem forall₂_mem_right {R : α → β → Prop} {as : List α} {bs : List β}
    (h : List.Forall₂ R as bs) {b : β} (hb : b ∈ bs) : ∃ a ∈ as, R a b := by
  induction h with
  | nil => cases hb
  | cons hab _ ih =>
      rcases List.mem_cons.mp hb with rfl | hb
      · exact ⟨_, List.mem_cons_self, hab⟩
      · obtain ⟨a, ha, hab⟩ := ih hb
        exact ⟨a, List.mem_cons_of_mem _ ha, hab⟩

theorem forall₂_mem_left {R : α → β → Prop} {as : List α} {bs : List β}
    (h : List.Forall₂ R as bs) {a : α} (ha : a ∈ as) : ∃ b ∈ bs, R a b :=
  forall₂_mem_right h.flip ha

theorem forall₂_imp_mem {R S : α → β → Prop} {as : List α} {bs : List β} (h : List.Forall₂ R as bs)
    (hS : ∀ a ∈ as, ∀ b, R a b → S a b) : List.Forall₂ S as bs := by
  induction h with
  | nil => exact .nil
  | cons hab _ ih =>
      exact .cons (hS _ List.mem_cons_self _ hab) (ih fun a ha => hS a (List.mem_cons_of_mem _ ha))

/-- A list between two others, made of what stands between their members. -/
theorem exists_between {γ : Type} {R : α → γ → Prop} {P Q : β → γ → Prop} {S : α → β → Prop}
    {as : List α} {cs : List γ} (h : List.Forall₂ R as cs)
    (hb : ∀ a ∈ as, ∀ c, R a c → ∃ b, P b c ∧ S a b ∧ Q b c) :
    ∃ bs, List.Forall₂ P bs cs ∧ List.Forall₂ S as bs ∧ List.Forall₂ Q bs cs := by
  induction h with
  | nil => exact ⟨[], .nil, .nil, .nil⟩
  | cons hac _ ih =>
      obtain ⟨b, hP, hS, hQ⟩ := hb _ List.mem_cons_self _ hac
      obtain ⟨bs, hPs, hSs, hQs⟩ := ih fun a ha => hb a (List.mem_cons_of_mem _ ha)
      exact ⟨b :: bs, .cons hP hPs, .cons hS hSs, .cons hQ hQs⟩

/-- Two lists beside the same list stand side by side. -/
theorem forall₂_beside {γ : Type} {R : α → β → Prop} {S : α → γ → Prop} {T : β → γ → Prop}
    {as : List α} {bs : List β} {cs : List γ} (h : List.Forall₂ R as bs) (h' : List.Forall₂ S as cs)
    (hT : ∀ a ∈ as, ∀ b c, R a b → S a c → T b c) : List.Forall₂ T bs cs := by
  induction h generalizing cs with
  | nil =>
      cases h'
      exact .nil
  | cons hab _ ih =>
      cases h' with
      | cons hac h' =>
          exact .cons (hT _ List.mem_cons_self _ _ hab hac)
            (ih h' fun a ha => hT a (List.mem_cons_of_mem _ ha))

theorem forall₂_zip {γ : Type} {R : α → β → Prop} {S : α → γ → Prop} {T : α × β → γ → Prop}
    {as : List α} {bs : List β} {cs : List γ} (h : List.Forall₂ R as bs) (h' : List.Forall₂ S as cs)
    (hT : ∀ a ∈ as, ∀ b c, R a b → S a c → T (a, b) c) : List.Forall₂ T (as.zip bs) cs := by
  induction h generalizing cs with
  | nil =>
      cases h'
      exact .nil
  | cons hab _ ih =>
      cases h' with
      | cons hac h' =>
          exact .cons (hT _ List.mem_cons_self _ _ hab hac)
            (ih h' fun a ha => hT a (List.mem_cons_of_mem _ ha))

theorem forall₂_and {R S : α → β → Prop} {as : List α} {bs : List β} (h : List.Forall₂ R as bs)
    (h' : List.Forall₂ S as bs) : List.Forall₂ (fun a b => R a b ∧ S a b) as bs := by
  induction h with
  | nil => exact .nil
  | cons hab _ ih =>
      cases h' with
      | cons hab' h' => exact .cons ⟨hab, hab'⟩ (ih h')

theorem forall₂_unique {R : α → β → Prop} (hR : ∀ a b b', R a b → R a b' → b = b') {as : List α}
    {bs cs : List β} (h : List.Forall₂ R as bs) (h' : List.Forall₂ R as cs) : bs = cs := by
  induction h generalizing cs with
  | nil => exact (List.forall₂_nil_left_iff.mp h').symm
  | cons head _ ih =>
      cases h' with
      | cons head' tail' => rw [hR _ _ _ head head', ih tail']

theorem forall₂_concat_left {R : α → β → Prop} {as : List α} {a : α} {cs : List β}
    (h : List.Forall₂ R (as ++ [a]) cs) : ∃ bs b, cs = bs ++ [b] ∧ List.Forall₂ R as bs ∧ R a b := by
  induction as generalizing cs with
  | nil =>
      cases h with
      | cons hab h =>
          cases h
          exact ⟨[], _, rfl, .nil, hab⟩
  | cons a' as ih =>
      cases h with
      | cons hab h =>
          obtain ⟨bs, b, rfl, hbs, hb⟩ := ih h
          exact ⟨_ :: bs, b, rfl, .cons hab hbs, hb⟩

theorem forall₂_getLast? {R : α → β → Prop} {as : List α} {bs : List β} (h : List.Forall₂ R as bs) :
    Option.Rel R as.getLast? bs.getLast? := by
  induction h with
  | nil => exact .none
  | @cons a b as bs hab h ih =>
      cases h with
      | nil => exact .some hab
      | cons _ _ => simpa only [List.getLast?_cons_cons] using ih

theorem except_forall₂_unique {f : α → Except ε β} {as : List α} {bs cs : List β}
    (h : List.Forall₂ (fun a b => f a = .ok b) as bs)
    (h' : List.Forall₂ (fun a b => f a = .ok b) as cs) : bs = cs :=
  Except.ok.inj ((except_mapM_eq_ok.mpr h).symm.trans (except_mapM_eq_ok.mpr h'))

theorem exists_forall₂_of_map {γ : Type} {f : α → Except ε β} {g : β → γ} {as : List α}
    {cs : List γ} (h : List.Forall₂ (fun a c => (f a).map g = .ok c) as cs) :
    ∃ bs, List.Forall₂ (fun a b => f a = .ok b) as bs ∧ cs = bs.map g := by
  induction h with
  | nil => exact ⟨[], .nil, rfl⟩
  | cons hac _ ih =>
      obtain ⟨b, hb, rfl⟩ := except_map_eq_ok.mp hac
      obtain ⟨bs, hbs, rfl⟩ := ih
      exact ⟨b :: bs, .cons hb hbs, rfl⟩

end Except

/-! ## §2  Passing bytes -/

/-- Between the two cursors stand the given bytes. -/
structure Cursor.Passed (c : Cursor) (bs : Bytes) (c' : Cursor) : Prop where
  rest : c.rest = bs ++ c'.rest
  offset : c'.offset = c.offset + bs.length

namespace Cursor

theorem Passed.nil (c : Cursor) : c.Passed [] c := ⟨rfl, rfl⟩

theorem passed_nil_iff {c c' : Cursor} : c.Passed [] c' ↔ c' = c := by
  constructor
  · rintro ⟨hr, ho⟩
    obtain ⟨o, rest⟩ := c
    obtain ⟨o', rest'⟩ := c'
    simp_all
  · rintro rfl
    exact .nil _

theorem Passed.trans {c d e : Cursor} {bs cs : Bytes} (h : c.Passed bs d) (h' : d.Passed cs e) :
    c.Passed (bs ++ cs) e :=
  ⟨by rw [h.rest, h'.rest, List.append_assoc],
    by rw [h'.offset, h.offset, List.length_append, Nat.add_assoc]⟩

/-- There is a cursor at every place inside of what was passed. -/
theorem passed_append_iff {c e : Cursor} {bs cs : Bytes} :
    c.Passed (bs ++ cs) e ↔ ∃ d, c.Passed bs d ∧ d.Passed cs e := by
  constructor
  · rintro ⟨hr, ho⟩
    refine ⟨⟨c.offset + bs.length, cs ++ e.rest⟩, ⟨?_, rfl⟩, ⟨rfl, ?_⟩⟩
    · rw [hr, List.append_assoc]
    · rw [ho, List.length_append, Nat.add_assoc]
  · rintro ⟨d, h, h'⟩
    exact h.trans h'

theorem passed_cons_iff {c e : Cursor} {b : UInt8} {bs : Bytes} :
    c.Passed (b :: bs) e ↔ ∃ d, c.Passed [b] d ∧ d.Passed bs e := by
  rw [← List.singleton_append]
  exact passed_append_iff

theorem start_passed (bs : Bytes) : (start bs).Passed bs ⟨bs.length, []⟩ :=
  ⟨by simp [start], by simp [start]⟩

end Cursor

namespace Malformed

@[simp] theorem inPlace_eq_ok {α : Type} {place : Place} {x : Except Malformed α} {a : α} :
    inPlace place x = .ok a ↔ x = .ok a := by
  cases x <;> simp [inPlace]

@[simp] theorem fail_ne_ok {α : Type} {cause : Cause} {a : α} :
    (fail cause : Except Malformed α) = .ok a ↔ False := by
  simp [fail]

end Malformed

namespace Read

variable {α β : Type}

/-! ## §3  Single steps -/

/-- Reading at offset `o` consumes `bs` and gives `a`, whatever stands behind. -/
def Takes (r : Read α) (o : Nat) (bs : Bytes) (a : α) : Prop :=
  ∀ {c c' : Cursor}, c.offset = o → c.Passed bs c' → r c = .ok (a, c')

theorem bind_eq_ok {x : Read α} {f : α → Read β} {c c' : Cursor} {b : β} :
    (x >>= f) c = .ok (b, c') ↔ ∃ a d, x c = .ok (a, d) ∧ f a d = .ok (b, c') := by
  show StateT.bind x f c = _ ↔ _
  rw [StateT.bind]
  cases h : x c with
  | error e => simp [bind, Except.bind]
  | ok p =>
      obtain ⟨a, d⟩ := p
      simp [bind, Except.bind]

theorem pure_eq_ok {a b : α} {c c' : Cursor} :
    (pure a : Read α) c = .ok (b, c') ↔ a = b ∧ c = c' := by
  show Except.ok (a, c) = Except.ok (b, c') ↔ _
  rw [Except.ok.injEq, Prod.mk.injEq]

theorem lift_eq_ok {x : Except Malformed α} {a : α} {c c' : Cursor} :
    (liftM x : Read α) c = .ok (a, c') ↔ x = .ok a ∧ c = c' := by
  cases x <;> simp [liftM, monadLift, MonadLift.monadLift, StateT.lift, bind, Except.bind, pure,
    Except.pure]

theorem fail_eq_ok {cause : Malformed.Cause} {c : Cursor} {x : α × Cursor} :
    (fail cause : Read α) c = .ok x ↔ False :=
  Malformed.fail_ne_ok

theorem within_eq_ok {place : Malformed.Place} {r : Read α} {c : Cursor} {x : α × Cursor} :
    within place r c = .ok x ↔ r c = .ok x :=
  Malformed.inPlace_eq_ok

theorem offset_eq_ok {c c' : Cursor} {o : Nat} : offset c = .ok (o, c') ↔ c.offset = o ∧ c = c' := by
  simp [offset]

theorem byte_eq_ok {c c' : Cursor} {b : UInt8} : byte c = .ok (b, c') ↔ c.Passed [b] c' := by
  obtain ⟨o, rest⟩ := c
  obtain ⟨o', rest'⟩ := c'
  constructor
  · intro h
    cases rest with
    | nil => simp [byte, Malformed.fail] at h
    | cons a rest =>
        simp only [byte, Except.ok.injEq, Prod.mk.injEq, Cursor.mk.injEq] at h
        exact ⟨by simp [h.1, h.2.2], by simp [h.2.1]⟩
  · rintro ⟨hr, ho⟩
    simp only [List.cons_append, List.nil_append] at hr ho
    subst hr ho
    simp [byte]

theorem word16_eq_ok {c c' : Cursor} {w : UInt16} :
    word16 c = .ok (w, c') ↔ c.Passed (ofUInt16 w) c' := by
  obtain ⟨o, rest⟩ := c
  obtain ⟨o', rest'⟩ := c'
  constructor
  · intro h
    match rest with
    | [] | [_] => simp [word16, Malformed.fail] at h
    | a :: b :: rest =>
        simp only [word16, Except.ok.injEq, Prod.mk.injEq, Cursor.mk.injEq] at h
        obtain ⟨rfl, rfl, rfl⟩ := h
        exact ⟨by simp [Bytes.ofUInt16_toUInt16], by simp⟩
  · rintro ⟨hr, ho⟩
    simp only [ofUInt16, List.cons_append, List.nil_append] at hr ho
    subst hr ho
    simp [word16, Bytes.toUInt16_ofUInt16]

theorem word32_eq_ok {c c' : Cursor} {w : UInt32} :
    word32 c = .ok (w, c') ↔ c.Passed (ofUInt32 w) c' := by
  obtain ⟨o, rest⟩ := c
  obtain ⟨o', rest'⟩ := c'
  constructor
  · intro h
    match rest with
    | [] | [_] | [_, _] | [_, _, _] => simp [word32, Malformed.fail] at h
    | a :: b :: c :: d :: rest =>
        simp only [word32, Except.ok.injEq, Prod.mk.injEq, Cursor.mk.injEq] at h
        obtain ⟨rfl, rfl, rfl⟩ := h
        exact ⟨by simp [Bytes.ofUInt32_joinUInt16], by simp⟩
  · rintro ⟨hr, ho⟩
    simp only [ofUInt32, List.cons_append, List.nil_append] at hr ho
    subst hr ho
    simp [word32, Bytes.joinUInt16_ofUInt32]

theorem word64_eq_ok {c c' : Cursor} {w : UInt64} :
    word64 c = .ok (w, c') ↔ c.Passed (ofUInt64 w) c' := by
  simp only [word64, bind_eq_ok, pure_eq_ok, word32_eq_ok]
  constructor
  · rintro ⟨high, d, hd, low, e, he, rfl, rfl⟩
    rw [Bytes.ofUInt64_joinUInt32]
    exact hd.trans he
  · intro h
    rw [ofUInt64, Cursor.passed_append_iff] at h
    obtain ⟨d, hd, he⟩ := h
    exact ⟨_, d, hd, _, c', he, Bytes.joinUInt32_ofUInt64 w, rfl⟩

theorem take_eq_ok {n : Nat} {c c' : Cursor} {bs : Bytes} :
    take n c = .ok (bs, c') ↔ bs.length = n ∧ c.Passed bs c' := by
  obtain ⟨o, rest⟩ := c
  obtain ⟨o', rest'⟩ := c'
  simp only [take, beq_iff_eq]
  constructor
  · intro h
    split at h
    · rename_i hn
      simp only [Except.ok.injEq, Prod.mk.injEq, Cursor.mk.injEq] at h
      obtain ⟨rfl, rfl, rfl⟩ := h
      exact ⟨hn, by simp, by simp only [hn]⟩
    · simp [Malformed.fail] at h
  · rintro ⟨rfl, hr, ho⟩
    simp only at hr ho
    subst hr ho
    simp

theorem Takes.bind {x : Read α} {f : α → Read β} {o : Nat} {bs cs : Bytes} {a : α} {b : β}
    (hx : x.Takes o bs a) (hf : (f a).Takes (o + bs.length) cs b) :
    (x >>= f).Takes o (bs ++ cs) b := by
  intro c c' ho hc
  obtain ⟨d, hd, hd'⟩ := Cursor.passed_append_iff.mp hc
  exact bind_eq_ok.mpr ⟨a, d, hx ho hd, hf (by rw [hd.offset, ho]) hd'⟩

/-! ## §4  Lists of values -/

/-- The values that a reader gives one after the other between two cursors. -/
def Repeats (r : Read α) : Cursor → List α → Cursor → Prop
  | c, [], c' => c = c'
  | c, a :: as, c' => ∃ d, r c = .ok (a, d) ∧ Repeats r d as c'

theorem timesOnto_eq_ok {r : Read α} {n : Nat} {found as : List α} {c c' : Cursor} :
    timesOnto r n found c = .ok (as, c') ↔
      ∃ bs, bs.length = n ∧ r.Repeats c bs c' ∧ as = found.reverse ++ bs := by
  induction n generalizing found c with
  | zero =>
      simp only [timesOnto, Except.ok.injEq, Prod.mk.injEq, List.length_eq_zero_iff]
      constructor
      · rintro ⟨rfl, rfl⟩
        exact ⟨[], rfl, rfl, by simp⟩
      · rintro ⟨bs, rfl, rfl, rfl⟩
        simp
  | succ n ih =>
      rw [timesOnto]
      constructor
      · intro h
        split at h
        · simp at h
        · rename_i a d hd
          obtain ⟨bs, hn, hbs, rfl⟩ := ih.mp h
          exact ⟨a :: bs, by simp [hn], ⟨d, hd, hbs⟩, by simp⟩
      · rintro ⟨bs, hn, hbs, rfl⟩
        obtain _ | ⟨a, bs⟩ := bs
        · simp at hn
        · obtain ⟨d, hd, hbs⟩ := hbs
          simp only [hd]
          exact ih.mpr ⟨bs, by simpa using hn, hbs, by simp⟩

theorem times_eq_ok {r : Read α} {n : Nat} {as : List α} {c c' : Cursor} :
    times n r c = .ok (as, c') ↔ as.length = n ∧ r.Repeats c as c' := by
  simp [times, timesOnto_eq_ok]

/-- The 16-bit word that counts the members of a list. -/
def countBytes (as : List α) : Bytes :=
  ofUInt16 (UInt16.ofNat as.length)

theorem counted_eq_ok {r : Read α} {as : List α} {c c' : Cursor} :
    counted r c = .ok (as, c') ↔
      as.length ≤ 65535 ∧ ∃ d, c.Passed (countBytes as) d ∧ r.Repeats d as c' := by
  simp only [counted, bind_eq_ok, word16_eq_ok, times_eq_ok, countBytes]
  constructor
  · rintro ⟨n, d, hd, hn, has⟩
    have hlt := n.toNat_lt
    refine ⟨by omega, d, ?_, has⟩
    rw [hn, UInt16.ofNat_toNat]
    exact hd
  · rintro ⟨hn, d, hd, has⟩
    have hlt : as.length < UInt16.size := Nat.lt_succ_of_le hn
    exact ⟨_, d, hd, (UInt16.toNat_ofNat_of_lt' hlt).symm, has⟩

/-- If each value has its bytes, then a list of values has theirs, one after the other. -/
theorem repeats_of_takes {r : Read α} {as : List α} {chunks : List Bytes}
    (h : List.Forall₂ (fun a bs => ∀ o, r.Takes o bs a) as chunks) {c c' : Cursor}
    (hc : c.Passed chunks.flatten c') : r.Repeats c as c' := by
  induction h generalizing c with
  | nil => exact (Cursor.passed_nil_iff.mp hc).symm
  | cons ha _ ih =>
      obtain ⟨d, hd, hd'⟩ := Cursor.passed_append_iff.mp hc
      exact ⟨d, ha _ rfl hd, ih hd'⟩

theorem counted_takes {r : Read α} {as : List α} {chunks : List Bytes}
    (hn : as.length ≤ 65535) (h : List.Forall₂ (fun a bs => ∀ o, r.Takes o bs a) as chunks)
    (o : Nat) : (counted r).Takes o (countBytes as ++ chunks.flatten) as := by
  intro c c' _ hc
  obtain ⟨d, hd, hd'⟩ := Cursor.passed_append_iff.mp hc
  exact counted_eq_ok.mpr ⟨hn, d, hd, repeats_of_takes h hd'⟩

/-- What is known of each value's bytes is known of the bytes of a list. -/
theorem Repeats.chunks {r : Read α} {P : α → Bytes → Prop} {as : List α} {c c' : Cursor}
    (h : r.Repeats c as c')
    (hP : ∀ a ∈ as, ∀ d d', r d = .ok (a, d') → ∃ bs, d.Passed bs d' ∧ P a bs) :
    ∃ chunks, List.Forall₂ P as chunks ∧ c.Passed chunks.flatten c' := by
  induction as generalizing c with
  | nil => exact ⟨[], .nil, Cursor.passed_nil_iff.mpr (Eq.symm h)⟩
  | cons a as ih =>
      obtain ⟨d, hd, h⟩ := h
      obtain ⟨bs, hbs, ha⟩ := hP a List.mem_cons_self c d hd
      obtain ⟨chunks, hchunks, hc⟩ := ih h fun b hb => hP b (List.mem_cons_of_mem a hb)
      exact ⟨bs :: chunks, .cons ha hchunks, hbs.trans hc⟩

/-- The words that a list was read from, if each of its members takes one. -/
theorem Repeats.words {r : Read α} {P : α → UInt16 → Prop} {as : List α} {c c' : Cursor}
    (h : r.Repeats c as c')
    (hP : ∀ a d d', r d = .ok (a, d') → ∃ i, P a i ∧ d.Passed (Bytes.ofUInt16 i) d') :
    ∃ is, List.Forall₂ P as is ∧ c.Passed (is.flatMap Bytes.ofUInt16) c' := by
  induction as generalizing c with
  | nil => exact ⟨[], .nil, Cursor.passed_nil_iff.mpr (Eq.symm h)⟩
  | cons a as ih =>
      obtain ⟨d, hd, h⟩ := h
      obtain ⟨i, hi, hpassed⟩ := hP a c d hd
      obtain ⟨is, his, hc⟩ := ih h
      exact ⟨i :: is, .cons hi his, hpassed.trans hc⟩

/-- The bytes of a list are those of its members, if reading a member means passing its bytes. -/
theorem repeats_iff {r : Read α} {P : α → Bytes → Prop}
    (h : ∀ {a c c'}, r c = .ok (a, c') ↔ ∃ bs, c.Passed bs c' ∧ P a bs) {as : List α}
    {c c' : Cursor} : r.Repeats c as c' ↔
      ∃ chunks, List.Forall₂ P as chunks ∧ c.Passed chunks.flatten c' := by
  constructor
  · intro has
    exact has.chunks fun _ _ _ _ ha => h.mp ha
  · rintro ⟨chunks, hchunks, hc⟩
    exact repeats_of_takes (hchunks.imp fun _ _ ha _ _ _ _ hd => h.mpr ⟨_, hd, ha⟩) hc

/-- The second reader reads as the first one does and then understands what was read. -/
def Refines (r : Read α) (R : α → β → Prop) (r' : Read β) : Prop :=
  ∀ {b : β} {c c' : Cursor}, r' c = .ok (b, c') ↔ ∃ a, r c = .ok (a, c') ∧ R a b

theorem Refines.repeats {r : Read α} {R : α → β → Prop} {r' : Read β} (h : r.Refines R r')
    {bs : List β} {c c' : Cursor} :
    r'.Repeats c bs c' ↔ ∃ as, r.Repeats c as c' ∧ List.Forall₂ R as bs := by
  induction bs generalizing c with
  | nil =>
      constructor
      · rintro rfl
        exact ⟨[], rfl, .nil⟩
      · rintro ⟨as, has, hR⟩
        cases hR
        exact has
  | cons b bs ih =>
      constructor
      · rintro ⟨d, hd, hbs⟩
        obtain ⟨a, ha, hab⟩ := h.mp hd
        obtain ⟨as, has, hR⟩ := ih.mp hbs
        exact ⟨a :: as, ⟨d, ha, has⟩, .cons hab hR⟩
      · rintro ⟨as, has, hR⟩
        cases hR with
        | cons hab hR =>
            obtain ⟨d, ha, has⟩ := has
            exact ⟨d, h.mpr ⟨_, ha, hab⟩, ih.mpr ⟨_, has, hR⟩⟩

/-- Lists are read and understood value by value. -/
theorem Refines.counted {r : Read α} {R : α → β → Prop} {r' : Read β} (h : r.Refines R r') :
    (counted r).Refines (List.Forall₂ R) (counted r') := by
  intro bs c c'
  simp only [counted_eq_ok, h.repeats]
  constructor
  · rintro ⟨hn, d, hd, as, has, hR⟩
    have hlength := hR.length_eq
    refine ⟨as, ⟨by omega, d, ?_, has⟩, hR⟩
    rw [countBytes, hlength]
    exact hd
  · rintro ⟨as, ⟨hn, d, hd, has⟩, hR⟩
    have hlength := hR.length_eq
    refine ⟨by omega, d, ?_, as, has, hR⟩
    rw [countBytes, ← hlength]
    exact hd

theorem run_eq_ok {r : Read α} {bytes : Bytes} {a : α} :
    run r bytes = .ok a ↔ ∃ c, r (Cursor.start bytes) = .ok (a, c) := by
  rw [run]
  split
  · rename_i b c h
    simp [h]
  · rename_i e h
    simp [h]

/-- The values of a list of which each is read with a known property. -/
theorem Repeats.forall {r : Read α} {P : α → Prop} {as : List α} {c c' : Cursor}
    (h : r.Repeats c as c') (hP : ∀ {a d d'}, r d = .ok (a, d') → P a) : ∀ a ∈ as, P a := by
  induction as generalizing c with
  | nil => simp
  | cons a as ih =>
      obtain ⟨d, hd, h⟩ := h
      exact List.forall_mem_cons.mpr ⟨hP hd, ih h⟩

/-- A body that a reader takes as a whole. -/
theorem run_of_takes {r : Read α} {bytes : Bytes} {a : α} (h : r.Takes 0 bytes a) :
    run r bytes = .ok a :=
  run_eq_ok.mpr ⟨_, h rfl (Cursor.start_passed bytes)⟩

end Read

end ClassFile
