import ClassFile.Proofs.Pool.Format
import ClassFile.Proofs.Pool.Names
/-!
# Requests for numbers

All that happens to a pool after it was read are requests for numbers (§1). A request may fail, and a compound one
may fail half way, when some of its entries were added already. What one request does to a consistent pool is
`Request.Done`; from this follows what holds after any number of requests, answered or not (§2).

The requests are those of the writer, but any entry at all may be asked for, also units that make up a text and texts
that do not fit. So the pools here need not be well-formed, and no more is said of them than that they are consistent.
-/

namespace ClassFile

/-! ## §1  Requests -/

namespace Interning

variable {α : Type}

/-- What is given on a pool is given on every later one. For pools that grew this is part of `Steady`; here the entries
in between need not be ones that the writer may add. -/
def Lasts (m : Interning α) : Prop :=
  ∀ (p q : Pool) (a : α), p.Precedes q → m.Gives p a → m.Gives q a

theorem lasts_entry (e : Entry) : (entry e).Lasts := by
  intro p q i h hi
  rw [gives_entry] at hi ⊢
  exact h.first hi

theorem lasts_text (s : String) : (text s).Lasts := by
  intro p q i h hi
  rw [gives_text] at hi ⊢
  exact ⟨hi.1, h.first hi.2⟩

theorem lasts_units (us : List UInt16) : (units us).Lasts := by
  intro p q i h hi
  rw [gives_units] at hi ⊢
  exact ⟨hi.1, h.first hi.2⟩

theorem lasts_bind {β : Type} {x : Interning α} {f : α → Interning β} [Steady x] [∀ a, Steady (f a)]
    (hx : x.Lasts) (hf : ∀ a, (f a).Lasts) : (x >>= f).Lasts := by
  intro p q b h hb
  rw [gives_bind] at hb ⊢
  obtain ⟨a, ha, hb⟩ := hb
  exact ⟨a, hx p q a h ha, hf a p q b h hb⟩

theorem lasts_className (name : String) : (className name).Lasts :=
  lasts_bind (lasts_text name) fun _ => lasts_entry _

theorem lasts_nameAndType (name descriptor : String) : (nameAndType name descriptor).Lasts :=
  lasts_bind (lasts_text name) fun _ => lasts_bind (lasts_text descriptor) fun _ => lasts_entry _

/-- Found, added or refused, an entry leaves a later pool behind. -/
theorem precedes_entry (e : Entry) (p : Pool) : p.Precedes ((entry e).runOn p).2 := by
  rw [runOn_entry]
  split
  · exact .refl p
  · split
    · rename_i room
      exact .push (.refl p) room
    · exact .refl p

end Interning

/-- What a pool can be asked for: the number of an entry, of a text, or of one of the things that are named by texts. -/
inductive Request where
  | entry (e : Entry)
  | text (s : String)
  | units (us : List UInt16)
  | className (name : String)
  | string (s : String)
  | stringUnits (us : List UInt16)
  | methodType (descriptor : String)
  | nameAndType (name descriptor : String)
  | fieldRef (m : MemberRef)
  | methodRef (m : MemberRef) (ofInterface : Bool)
  | dynamicCall (bootstrap : UInt16) (name descriptor : String)

namespace Request

open Interning (Steady)

def interning : Request → Interning UInt16
  | .entry e => Interning.entry e
  | .text s => Interning.text s
  | .units us => Interning.units us
  | .className name => Interning.className name
  | .string s => Interning.string s
  | .stringUnits us => Interning.stringUnits us
  | .methodType descriptor => Interning.methodType descriptor
  | .nameAndType name descriptor => Interning.nameAndType name descriptor
  | .fieldRef m => Interning.fieldRef m
  | .methodRef m ofInterface => Interning.methodRef m ofInterface
  | .dynamicCall bootstrap name descriptor => Interning.dynamicCall bootstrap name descriptor

/-- The answer on a pool, and the pool that is left. -/
def on (r : Request) (p : Pool) : Except Error UInt16 × Pool := r.interning.runOn p

/-- In the pool `q` the number `i` leads to what was asked for, all the way to its texts. -/
def Found : Request → (q : Pool) → (i : UInt16) → Prop
  | .entry e, q, i => q.entry? i = some e
  | .text s, q, i => q.entry? i = some (.utf8 s)
  | .units us, q, i => q.entry? i = some (.ofUnits us)
  | .className name, q, i => q.className i = .ok name
  | .string s, q, i => ∃ t, q.entry? i = some (.string t) ∧ q.entry? t = some (.utf8 s)
  | .stringUnits us, q, i => ∃ t, q.entry? i = some (.string t) ∧ q.entry? t = some (.ofUnits us)
  | .methodType descriptor, q, i =>
      ∃ t, q.entry? i = some (.methodType t) ∧ q.entry? t = some (.utf8 descriptor)
  | .nameAndType name descriptor, q, i => q.nameAndType i = .ok (name, descriptor)
  | .fieldRef m, q, i =>
      (∃ owner nt, q.entry? i = some (.fieldRef owner nt)) ∧ q.member i = .ok (m, false)
  | .methodRef m ofInterface, q, i =>
      (∃ owner nt, q.entry? i =
        some (if ofInterface then .interfaceMethodRef owner nt else .methodRef owner nt)) ∧
      q.member i = .ok (m, ofInterface)
  | .dynamicCall bootstrap name descriptor, q, i => q.dynamicCall i = .ok (bootstrap, name, descriptor)

/-- Any entry at all may be asked for, so that is the one request that need not be steady. -/
theorem entry_or_steady (r : Request) : (∃ e, r = .entry e) ∨ Steady r.interning := by
  cases r with
  | entry e => exact .inl ⟨e, rfl⟩
  | text s => exact .inr (Interning.steady_text s)
  | units us => exact .inr (Interning.steady_units us)
  | className name => exact .inr (Interning.steady_className name)
  | string s => exact .inr (Interning.steady_string s)
  | stringUnits us => exact .inr (Interning.steady_stringUnits us)
  | methodType descriptor => exact .inr (Interning.steady_methodType descriptor)
  | nameAndType name descriptor => exact .inr (Interning.steady_nameAndType name descriptor)
  | fieldRef m => exact .inr (Interning.steady_fieldRef m)
  | methodRef m ofInterface => exact .inr (Interning.steady_methodRef m ofInterface)
  | dynamicCall bootstrap name descriptor =>
      exact .inr (Interning.steady_dynamicCall bootstrap name descriptor)

theorem lasts (r : Request) : r.interning.Lasts := by
  cases r with
  | entry e => exact Interning.lasts_entry e
  | text s => exact Interning.lasts_text s
  | units us => exact Interning.lasts_units us
  | className name => exact Interning.lasts_className name
  | string s => exact Interning.lasts_bind (Interning.lasts_text s) fun _ => Interning.lasts_entry _
  | stringUnits us =>
      exact Interning.lasts_bind (Interning.lasts_units us) fun _ => Interning.lasts_entry _
  | methodType descriptor =>
      exact Interning.lasts_bind (Interning.lasts_text descriptor) fun _ => Interning.lasts_entry _
  | nameAndType name descriptor => exact Interning.lasts_nameAndType name descriptor
  | fieldRef m =>
      exact Interning.lasts_bind (Interning.lasts_className m.owner) fun _ =>
        Interning.lasts_bind (Interning.lasts_nameAndType m.name m.descriptor) fun _ =>
          Interning.lasts_entry _
  | methodRef m ofInterface =>
      exact Interning.lasts_bind (Interning.lasts_className m.owner) fun _ =>
        Interning.lasts_bind (Interning.lasts_nameAndType m.name m.descriptor) fun _ =>
          Interning.lasts_entry _
  | dynamicCall bootstrap name descriptor =>
      exact Interning.lasts_bind (Interning.lasts_nameAndType name descriptor) fun _ =>
        Interning.lasts_entry _

variable {p q : Pool} {i : UInt16}

/-- What is answered on a pool whose numbers lead to their entries leads to what was asked for. -/
theorem found_of_gives (r : Request) (hq : q.Faithful) (h : r.interning.Gives q i) : r.Found q i := by
  cases r with
  | entry e => exact hq _ _ (Interning.gives_entry.mp h)
  | text s => exact hq _ _ (Interning.gives_text.mp h).2
  | units us => exact hq _ _ (Interning.gives_units.mp h).2
  | className name => exact hq.className_of_gives h
  | string s =>
      obtain ⟨t, ht, hi⟩ := Interning.gives_string.mp h
      exact ⟨t, hq _ _ hi, hq _ _ (Interning.gives_text.mp ht).2⟩
  | stringUnits us =>
      obtain ⟨t, ht, hi⟩ := Interning.gives_stringUnits.mp h
      exact ⟨t, hq _ _ hi, hq _ _ (Interning.gives_units.mp ht).2⟩
  | methodType descriptor =>
      obtain ⟨t, ht, hi⟩ := Interning.gives_methodType.mp h
      exact ⟨t, hq _ _ hi, hq _ _ (Interning.gives_text.mp ht).2⟩
  | nameAndType name descriptor => exact hq.nameAndType_of_gives h
  | fieldRef m =>
      obtain ⟨owner, -, nt, -, hi⟩ := Interning.gives_fieldRef.mp h
      exact ⟨⟨owner, nt, hq _ _ hi⟩, hq.member_of_fieldRef h⟩
  | methodRef m ofInterface =>
      obtain ⟨owner, -, nt, -, hi⟩ := Interning.gives_methodRef.mp h
      exact ⟨⟨owner, nt, hq _ _ hi⟩, hq.member_of_methodRef h⟩
  | dynamicCall bootstrap name descriptor => exact hq.dynamicCall_of_gives h

/-- Answered or not, a request only adds entries, and only ones for which there is room. -/
theorem precedes_on (r : Request) (p : Pool) : p.Precedes (r.on p).2 := by
  rcases r.entry_or_steady with ⟨e, rfl⟩ | hsteady
  · exact Interning.precedes_entry e p
  · exact (hsteady.grows p).precedes

/-- An answer is given again on the pool that is left. -/
theorem gives_of_on {r : Request} (h : r.on p = (.ok i, q)) : r.interning.Gives q i := by
  rcases r.entry_or_steady with ⟨e, rfl⟩ | hsteady
  · exact Interning.gives_entry.mpr (Interning.first_of_runOn_entry h)
  · exact hsteady.gives h

end Request

/-! ## §2  Runs -/

namespace Pool

/-- The pool that is left when requests were made one after the other, answered or not. -/
def after (p : Pool) (requests : List Request) : Pool :=
  requests.foldl (fun q r => (r.on q).2) p

theorem after_concat (p : Pool) (requests : List Request) (r : Request) :
    p.after (requests ++ [r]) = (r.on (p.after requests)).2 := by
  simp [after]

theorem precedes_after (p : Pool) (requests : List Request) : p.Precedes (p.after requests) := by
  induction requests using List.reverseRecOn with
  | nil => exact .refl p
  | append_singleton requests r ih =>
      rw [after_concat]
      exact ih.trans (r.precedes_on _)

end Pool

/-- What a request does to a pool: nothing that was there changes or moves, and an answer leads to what was asked for.
Asked again, then or later, the answer is the same and nothing is added. -/
structure Request.Done (r : Request) (p : Pool) : Prop where
  kept : p.slots.toList <+: (r.on p).2.slots.toList
  found : ∀ i q, r.on p = (.ok i, q) → r.Found q i
  again : ∀ i q, r.on p = (.ok i, q) → ∀ later : List Request, r.on (q.after later) = (.ok i, q.after later)

namespace Pool

variable {p : Pool}

theorem Consistent.done (h : p.Consistent) (r : Request) : r.Done p where
  kept := Precedes.slots_prefix (r.precedes_on p)
  found i q hrun := by
    have hq := (r.precedes_on p).consistent h
    rw [hrun] at hq
    exact r.found_of_gives hq.faithful (Request.gives_of_on hrun)
  again i q hrun later :=
    r.lasts q (q.after later) i (q.precedes_after later) (Request.gives_of_on hrun)

/-- An entry is refused only if it is new and its last slot would have a number that a file cannot hold. -/
theorem Consistent.refused_iff (h : p.Consistent) (e : Entry) :
    (∃ error, ((Request.entry e).on p).1 = .error error) ↔
      (∀ i, p.entry? i ≠ some e) ∧ 65534 < p.size + e.width - 1 := by
  rw [← h.first_eq_none_iff, Request.on, Request.interning, Interning.runOn_entry]
  have hmax : maxSlots = 65535 := rfl
  have hwidth := e.width_pos
  cases p.first[e]? with
  | some i => simp
  | none =>
      simp only [true_and]
      split
      · simp
        omega
      · simp
        omega

/-- The pools that requests start with: the empty one, and those that are read. -/
inductive Initial : Pool → Prop where
  | empty : Initial Pool.empty
  | read {c c' : Cursor} {p : Pool} (h : Pool.read c = .ok (p, c')) : Initial p

theorem Initial.consistent (h : p.Initial) : p.Consistent := by
  cases h with
  | empty => exact consistent_empty
  | read h => exact (wellFormed_of_read h).consistent

/-- **Slots, table and numbers agree after every run.** Whatever was asked for, and whether or not it was answered, what
was there stays, and the next request is done. An entry is refused exactly if it is new and its last slot would lie
beyond number 65534. -/
theorem Initial.requested (h : p.Initial) (requests : List Request) :
    (p.after requests).Consistent ∧ p.slots.toList <+: (p.after requests).slots.toList ∧
      (∀ r : Request, r.Done (p.after requests)) ∧
      ∀ e : Entry, (∃ error, ((Request.entry e).on (p.after requests)).1 = .error error) ↔
        (∀ i, Pool.entry? (p.after requests) i ≠ some e) ∧
          65534 < (p.after requests).size + e.width - 1 := by
  have hlater := p.precedes_after requests
  have hconsistent := hlater.consistent h.consistent
  exact ⟨hconsistent, hlater.slots_prefix, hconsistent.done, hconsistent.refused_iff⟩

/-- A wide entry and one text twice, as a file may hold them. -/
def twice : Pool := ofEntries [.long 1, .utf8 "A", .utf8 "A"]

theorem initial_twice : twice.Initial := by
  have wf : twice.WellFormed := by
    refine ⟨⟨_, rfl, ?_⟩, by decide⟩
    simp [Entry.Sound]
  have fit : twice.TextsFit := by
    intro i e hi
    have he := mem_of_found hi
    simp only [List.mem_cons, List.not_mem_nil, or_false] at he
    rcases he with rfl | rfl | rfl
    · trivial
    · show _ ≤ _
      decide
    · show _ ≤ _
      decide
  exact .read (c := .start twice.bytes) (read_bytes wf fit 0 rfl (Cursor.start_passed _))

/-- The text keeps the smaller one of its numbers, also when more was added behind it. -/
theorem requested_twice : (twice.after [.className "A", .entry (.double 2)]).Consistent ∧
    (twice.after [.className "A", .entry (.double 2)]).first[Entry.utf8 "A"]? = some 3 ∧
    Request.Done (.string "A") (twice.after [.className "A", .entry (.double 2)]) := by
  obtain ⟨hconsistent, hprefix, hdone, -⟩ := initial_twice.requested [.className "A", .entry (.double 2)]
  have hslots : twice.slots.toList = [none, some (.long 1), none, some (.utf8 "A"), some (.utf8 "A")] := rfl
  obtain ⟨more, hmore⟩ := hprefix
  rw [hslots] at hmore
  refine ⟨hconsistent, (hconsistent.first_iff _ _).mpr ⟨?_, fun n hn => ?_⟩, hdone _⟩
  · rw [entry?_eq_some, ← hmore]
    rfl
  · rw [← hmore] at hn
    by_contra hlt
    have hfront : n = 0 ∨ n = 1 ∨ n = 2 := by
      have hthree : (3 : UInt16).toNat = 3 := rfl
      omega
    rcases hfront with rfl | rfl | rfl <;> simp at hn

end Pool

end ClassFile
