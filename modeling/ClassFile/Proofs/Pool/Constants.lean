import ClassFile.Proofs.Pool.Names
/-!
# Constants, numbered and looked up

A constant may come back in another form: units that make up a text are read as that text. `Constant.settled` is
the form that comes back, and it is given the number of the original. Everything else about a constant survives,
floating-point values bit by bit; one that is only an entry of the pool survives if the entry is of a kind that can
be loaded at all.

§2 is constants that instructions load, §3 those that annotations hold under a tag. For both there is one relation
between a constant and its entries, and the reader and the writer are each related to it.
-/

namespace ClassFile

/-! ## §1  The form that comes back -/

namespace Constant

/-- The constant as it is read back: a text if it is one. -/
def settled : Constant → Constant
  | .utf16 us =>
      match Text.ofUnits? us with
      | some s => .string s
      | none => .utf16 us
  | c => c

@[simp] theorem isTwoSlot_settled (c : Constant) : c.settled.isTwoSlot = c.isTwoSlot := by
  cases c with
  | utf16 us =>
      rw [settled]
      split <;> rfl
  | _ => rfl

theorem settled_settled (c : Constant) : c.settled.settled = c.settled := by
  cases c with
  | utf16 us =>
      cases h : Text.ofUnits? us with
      | some s => simp [settled, h]
      | none => simp [settled, h]
  | _ => rfl

/-- The constant is not one that only the pool holds, or the pool holds it. -/
def Backed (q : Pool) : Constant → Prop
  | .pooled i =>
      (∃ kind reference, q.entry? i = some (.methodHandle kind reference)) ∨
        ∃ bootstrap nt, q.entry? i = some (.dynamic bootstrap nt)
  | _ => True

theorem Backed.grows {p q : Pool} {c : Constant} (h : c.Backed p) (hpq : p.Grows q) :
    c.Backed q := by
  cases c with
  | pooled i =>
      rcases h with ⟨kind, reference, h⟩ | ⟨bootstrap, nt, h⟩
      · exact .inl ⟨kind, reference, hpq.entry? h⟩
      · exact .inr ⟨bootstrap, nt, hpq.entry? h⟩
  | _ => trivial

end Constant

/-! ## §2  Loaded constants -/

namespace Pool

/-- The number leads to a constant that can be loaded. -/
inductive Loads (q : Pool) : UInt16 → Constant → Prop where
  | int {i : UInt16} {v : Int32} (h : q.entry? i = some (.integer v)) : Loads q i (.int v)
  | float {i : UInt16} {v : UInt32} (h : q.entry? i = some (.float v)) : Loads q i (.float v)
  | long {i : UInt16} {v : Int64} (h : q.entry? i = some (.long v)) : Loads q i (.long v)
  | double {i : UInt16} {v : UInt64} (h : q.entry? i = some (.double v)) : Loads q i (.double v)
  | string {i t : UInt16} {s : String} (h : q.entry? i = some (.string t))
      (ht : q.entry? t = some (.utf8 s)) : Loads q i (.string s)
  | utf16 {i t : UInt16} {us : List UInt16} (h : q.entry? i = some (.string t))
      (ht : q.entry? t = some (.utf16 us)) : Loads q i (.utf16 us)
  | classRef {i t : UInt16} {s : String} (h : q.entry? i = some (.classRef t))
      (ht : q.entry? t = some (.utf8 s)) : Loads q i (.classRef s)
  | methodType {i t : UInt16} {s : String} (h : q.entry? i = some (.methodType t))
      (ht : q.entry? t = some (.utf8 s)) : Loads q i (.methodType s)
  | handle {i r : UInt16} {k : UInt8} (h : q.entry? i = some (.methodHandle k r)) :
      Loads q i (.pooled i)
  | dynamic {i b nt : UInt16} (h : q.entry? i = some (.dynamic b nt)) : Loads q i (.pooled i)

theorem loadable_eq_ok {q : Pool} {i : UInt16} {c : Constant} :
    q.loadable i = .ok c ↔ q.Loads i c := by
  simp only [loadable, except_bind_eq_ok, entry_eq_ok]
  constructor
  · rintro ⟨e, he, h⟩
    cases e with
    | integer v => rw [← except_pure_eq_ok.mp h]; exact .int he
    | float v => rw [← except_pure_eq_ok.mp h]; exact .float he
    | long v => rw [← except_pure_eq_ok.mp h]; exact .long he
    | double v => rw [← except_pure_eq_ok.mp h]; exact .double he
    | methodHandle k r => rw [← except_pure_eq_ok.mp h]; exact .handle he
    | dynamic b nt => rw [← except_pure_eq_ok.mp h]; exact .dynamic he
    | classRef t =>
        simp only [except_bind_eq_ok, except_pure_eq_ok, text_eq_ok] at h
        obtain ⟨s, ht, rfl⟩ := h
        exact .classRef he ht
    | methodType t =>
        simp only [except_bind_eq_ok, except_pure_eq_ok, text_eq_ok] at h
        obtain ⟨s, ht, rfl⟩ := h
        exact .methodType he ht
    | string t =>
        -- The text of a string may be one of units, which the reader asks for first.
        simp only [except_bind_eq_ok, entry_eq_ok] at h
        obtain ⟨e, ht, h⟩ := h
        cases e with
        | utf16 us => rw [← except_pure_eq_ok.mp h]; exact .utf16 he ht
        | _ =>
            simp only [except_bind_eq_ok, except_pure_eq_ok, text_eq_ok] at h
            obtain ⟨s, ht, rfl⟩ := h
            exact .string he ht
    | _ => simp at h
  · rintro (h | h | h | h | ⟨h, ht⟩ | ⟨h, ht⟩ | ⟨h, ht⟩ | ⟨h, ht⟩ | h | h)
    · exact ⟨_, h, rfl⟩
    · exact ⟨_, h, rfl⟩
    · exact ⟨_, h, rfl⟩
    · exact ⟨_, h, rfl⟩
    · refine ⟨_, h, ?_⟩
      simp only [except_bind_eq_ok, entry_eq_ok]
      refine ⟨_, ht, ?_⟩
      simp only [except_bind_eq_ok, except_pure_eq_ok, text_eq_ok]
      exact ⟨_, ht, rfl⟩
    · refine ⟨_, h, ?_⟩
      simp only [except_bind_eq_ok, entry_eq_ok]
      exact ⟨_, ht, rfl⟩
    · refine ⟨_, h, ?_⟩
      simp only [except_bind_eq_ok, except_pure_eq_ok, text_eq_ok]
      exact ⟨_, ht, rfl⟩
    · refine ⟨_, h, ?_⟩
      simp only [except_bind_eq_ok, except_pure_eq_ok, text_eq_ok]
      exact ⟨_, ht, rfl⟩
    · exact ⟨_, h, rfl⟩
    · exact ⟨_, h, rfl⟩

theorem WellFormed.ofUnits_of_entry? {q : Pool} (wf : q.WellFormed) {i : UInt16}
    {us : List UInt16} (h : q.entry? i = some (.utf16 us)) : Text.ofUnits? us = none :=
  wf.sound h

theorem WellFormed.ofUnits_eq {q : Pool} (wf : q.WellFormed) {i : UInt16} {us : List UInt16}
    (h : q.entry? i = some (.utf16 us)) : Entry.ofUnits us = .utf16 us := by
  simp only [Entry.ofUnits, wf.ofUnits_of_entry? h]

theorem Loads.settled {q : Pool} (wf : q.WellFormed) {i : UInt16} {c : Constant}
    (h : q.Loads i c) : c.settled = c := by
  cases h with
  | utf16 _ ht => simp only [Constant.settled, wf.ofUnits_of_entry? ht]
  | _ => rfl

theorem Loads.backed {q : Pool} {i : UInt16} {c : Constant} (h : q.Loads i c) : c.Backed q := by
  cases h with
  | handle h => exact .inl ⟨_, _, h⟩
  | dynamic h => exact .inr ⟨_, _, h⟩
  | _ => trivial

end Pool

open Interning

theorem constant_settled (c : Constant) : constant c.settled = constant c := by
  cases c with
  | utf16 us =>
      cases h : Text.ofUnits? us with
      | some s => simp only [Constant.settled, h, constant, string, stringUnits, units]
      | none => simp only [Constant.settled, h]
  | _ => rfl

theorem Pool.WellFormed.loads_of_gives {q : Pool} (wf : q.WellFormed) {i : UInt16} {c : Constant}
    (backed : c.Backed q) (h : (constant c).Gives q i) : q.Loads i c.settled := by
  cases c with
  | int v => exact .int (wf.entry?_of_first (gives_entry.mp h))
  | float v => exact .float (wf.entry?_of_first (gives_entry.mp h))
  | long v => exact .long (wf.entry?_of_first (gives_entry.mp h))
  | double v => exact .double (wf.entry?_of_first (gives_entry.mp h))
  | string s =>
      obtain ⟨t, ht, hi⟩ := gives_string.mp h
      exact .string (wf.entry?_of_first hi) (wf.entry?_of_first (gives_text.mp ht).2)
  | utf16 us =>
      obtain ⟨t, ht, hi⟩ := gives_stringUnits.mp h
      have htext := wf.entry?_of_first (gives_units.mp ht).2
      cases hus : Text.ofUnits? us with
      | some s =>
          simp only [Entry.ofUnits, hus] at htext
          simp only [Constant.settled, hus]
          exact .string (wf.entry?_of_first hi) htext
      | none =>
          simp only [Entry.ofUnits, hus] at htext
          simp only [Constant.settled, hus]
          exact .utf16 (wf.entry?_of_first hi) htext
  | classRef name =>
      obtain ⟨t, ht, hi⟩ := gives_className.mp h
      exact .classRef (wf.entry?_of_first hi) (wf.entry?_of_first (gives_text.mp ht).2)
  | methodType d =>
      obtain ⟨t, ht, hi⟩ := gives_methodType.mp h
      exact .methodType (wf.entry?_of_first hi) (wf.entry?_of_first (gives_text.mp ht).2)
  | pooled j =>
      obtain rfl : j = i := gives_pure.mp h
      rcases backed with ⟨_, _, hj⟩ | ⟨_, _, hj⟩
      · exact .handle hj
      · exact .dynamic hj

theorem Pool.Canonical.gives_of_loads {q : Pool} (hq : q.Canonical) {i : UInt16} {c : Constant}
    (h : q.Loads i c) : (constant c).Gives q i := by
  have htext {t : UInt16} {s : String} (ht : q.entry? t = some (.utf8 s)) :
      (Interning.text s).Gives q t := hq.gives_of_text (text_eq_ok.mpr ht)
  cases h with
  | int h => exact gives_entry.mpr (hq.first_of_entry? h)
  | float h => exact gives_entry.mpr (hq.first_of_entry? h)
  | long h => exact gives_entry.mpr (hq.first_of_entry? h)
  | double h => exact gives_entry.mpr (hq.first_of_entry? h)
  | string h ht => exact gives_string.mpr ⟨_, htext ht, hq.first_of_entry? h⟩
  | utf16 h ht =>
      have hunits := hq.wellFormed.ofUnits_eq ht
      refine gives_stringUnits.mpr ⟨_, gives_units.mpr ⟨?_, ?_⟩, hq.first_of_entry? h⟩
      · rw [hunits]
        exact hq.textsFit _ _ ht
      · rw [hunits]
        exact hq.first_of_entry? ht
  | classRef h ht => exact gives_className.mpr ⟨_, htext ht, hq.first_of_entry? h⟩
  | methodType h ht => exact gives_methodType.mpr ⟨_, htext ht, hq.first_of_entry? h⟩
  | handle h => exact gives_pure.mpr rfl
  | dynamic h => exact gives_pure.mpr rfl

/-! ## §3  Constants of annotations -/

namespace ElementValue

/-- Under the tag the constant may stand, and this is its entry. -/
inductive TagEntry : UInt8 → Constant → Entry → Prop where
  | string (s : String) : TagEntry ElementTag.string (.string s) (.utf8 s)
  | utf16 (us : List UInt16) : TagEntry ElementTag.string (.utf16 us) (.ofUnits us)
  | int {tag : UInt8} (h : ElementTag.isInteger tag) (v : Int32) : TagEntry tag (.int v) (.integer v)
  | long (v : Int64) : TagEntry ElementTag.long (.long v) (.long v)
  | float (v : UInt32) : TagEntry ElementTag.float (.float v) (.float v)
  | double (v : UInt64) : TagEntry ElementTag.double (.double v) (.double v)

theorem TagEntry.isConstant {tag : UInt8} {c : Constant} {e : Entry} (h : TagEntry tag c e) :
    ElementTag.isConstant tag = true := by
  cases h with
  | int h v => simp [ElementTag.isConstant, h]
  | _ => rfl

theorem TagEntry.settled {tag : UInt8} {c : Constant} {e : Entry} (h : TagEntry tag c e) :
    TagEntry tag c.settled e := by
  cases h with
  | utf16 us =>
      cases hus : Text.ofUnits? us with
      | some s =>
          simp only [Constant.settled, Entry.ofUnits, hus]
          exact .string s
      | none =>
          simp only [Constant.settled, hus]
          exact .utf16 us
  | string s => exact .string s
  | int h v => exact .int h v
  | long v => exact .long v
  | float v => exact .float v
  | double v => exact .double v

theorem gives_constantIndex {q : Pool} {tag : UInt8} {c : Constant} {i : UInt16} :
    (constantIndex tag c).Gives q i ↔ ∃ e, TagEntry tag c e ∧ e.Fits ∧ q.first[e]? = some i := by
  constructor
  · intro h
    cases c with
    | string s =>
        simp only [constantIndex, gives_ite, gives_fail, gives_text] at h
        split at h
        · rename_i htag
          rw [beq_iff_eq.mp htag]
          exact ⟨_, .string s, h⟩
        · exact h.elim
    | utf16 us =>
        simp only [constantIndex, gives_ite, gives_fail, gives_units] at h
        split at h
        · rename_i htag
          rw [beq_iff_eq.mp htag]
          exact ⟨_, .utf16 us, h⟩
        · exact h.elim
    | int v =>
        simp only [constantIndex, gives_ite, gives_fail, gives_entry] at h
        split at h
        · rename_i htag
          exact ⟨_, .int htag v, trivial, h⟩
        · exact h.elim
    | long v =>
        simp only [constantIndex, gives_ite, gives_fail, gives_entry] at h
        split at h
        · rename_i htag
          rw [beq_iff_eq.mp htag]
          exact ⟨_, .long v, trivial, h⟩
        · exact h.elim
    | float v =>
        simp only [constantIndex, gives_ite, gives_fail, gives_entry] at h
        split at h
        · rename_i htag
          rw [beq_iff_eq.mp htag]
          exact ⟨_, .float v, trivial, h⟩
        · exact h.elim
    | double v =>
        simp only [constantIndex, gives_ite, gives_fail, gives_entry] at h
        split at h
        · rename_i htag
          rw [beq_iff_eq.mp htag]
          exact ⟨_, .double v, trivial, h⟩
        · exact h.elim
    | _ => exact (gives_fail.mp h).elim
  · rintro ⟨e, htag, hfits, hi⟩
    cases htag with
    | string s => exact gives_text.mpr ⟨hfits, hi⟩
    | utf16 us => exact gives_units.mpr ⟨hfits, hi⟩
    | int htag v =>
        rw [constantIndex, if_pos htag]
        exact gives_entry.mpr hi
    | long v => exact gives_entry.mpr hi
    | float v => exact gives_entry.mpr hi
    | double v => exact gives_entry.mpr hi

theorem gives_constantIndex_settled {q : Pool} {tag : UInt8} {c : Constant} {i : UInt16}
    (h : (constantIndex tag c).Gives q i) : (constantIndex tag c.settled).Gives q i := by
  obtain ⟨e, htag, hi⟩ := gives_constantIndex.mp h
  exact gives_constantIndex.mpr ⟨e, htag.settled, hi⟩

end ElementValue

open ElementValue (TagEntry)

namespace Pool

theorem WellFormed.elementConstant_eq_ok {q : Pool} (wf : q.WellFormed) {tag : UInt8} {i : UInt16}
    {c : Constant} : q.elementConstant tag i = .ok c ↔
      c.settled = c ∧ ∃ e, q.entry? i = some e ∧ TagEntry tag c e := by
  simp only [elementConstant, except_bind_eq_ok, entry_eq_ok]
  constructor
  · rintro ⟨e, he, h⟩
    cases e with
    | utf8 s =>
        dsimp only at h
        split at h
        · rename_i htag
          rw [beq_iff_eq.mp htag, ← except_pure_eq_ok.mp h]
          exact ⟨rfl, _, he, .string s⟩
        · simp at h
    | utf16 us =>
        dsimp only at h
        split at h
        · rename_i htag
          -- An entry of units is sound only if its units make up no text, so the constant is settled.
          have hus := wf.ofUnits_of_entry? he
          rw [beq_iff_eq.mp htag, ← except_pure_eq_ok.mp h]
          refine ⟨by simp only [Constant.settled, hus], _, he, ?_⟩
          rw [← wf.ofUnits_eq he]
          exact .utf16 us
        · simp at h
    | integer v =>
        dsimp only at h
        split at h
        · rename_i htag
          rw [← except_pure_eq_ok.mp h]
          exact ⟨rfl, _, he, .int htag v⟩
        · simp at h
    | long v =>
        dsimp only at h
        split at h
        · rename_i htag
          rw [beq_iff_eq.mp htag, ← except_pure_eq_ok.mp h]
          exact ⟨rfl, _, he, .long v⟩
        · simp at h
    | float v =>
        dsimp only at h
        split at h
        · rename_i htag
          rw [beq_iff_eq.mp htag, ← except_pure_eq_ok.mp h]
          exact ⟨rfl, _, he, .float v⟩
        · simp at h
    | double v =>
        dsimp only at h
        split at h
        · rename_i htag
          rw [beq_iff_eq.mp htag, ← except_pure_eq_ok.mp h]
          exact ⟨rfl, _, he, .double v⟩
        · simp at h
    | _ => simp at h
  · rintro ⟨hsettled, e, he, htag⟩
    refine ⟨e, he, ?_⟩
    cases htag with
    | string s => rfl
    | utf16 us =>
        -- Settled units make up no text, and their entry is one of units.
        cases hus : Text.ofUnits? us with
        | some s =>
            simp only [Constant.settled, hus] at hsettled
            cases hsettled
        | none =>
            simp only [Entry.ofUnits, hus]
            rfl
    | int htag v =>
        simp only [htag, if_true]
        rfl
    | long v => rfl
    | float v => rfl
    | double v => rfl

theorem WellFormed.elementConstant_of_gives {q : Pool} (wf : q.WellFormed) {tag : UInt8}
    {i : UInt16} {c : Constant} (h : (ElementValue.constantIndex tag c).Gives q i) :
    q.elementConstant tag i = .ok c.settled := by
  obtain ⟨e, htag, -, hi⟩ := ElementValue.gives_constantIndex.mp h
  exact wf.elementConstant_eq_ok.mpr
    ⟨c.settled_settled, e, wf.entry?_of_first hi, htag.settled⟩

theorem Canonical.gives_of_elementConstant {q : Pool} (hq : q.Canonical) {tag : UInt8}
    {i : UInt16} {c : Constant} (h : q.elementConstant tag i = .ok c) :
    (ElementValue.constantIndex tag c).Gives q i := by
  obtain ⟨-, e, he, htag⟩ := hq.wellFormed.elementConstant_eq_ok.mp h
  exact ElementValue.gives_constantIndex.mpr
    ⟨e, htag, hq.textsFit i e he, hq.first_of_entry? he⟩

end Pool

end ClassFile
