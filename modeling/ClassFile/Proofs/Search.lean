import ClassFile.Proofs.Reading
import ClassFile.Search
import Mathlib.Data.List.Induction
import Mathlib.Order.Bounds.Basic
/-!
# What a search finds

A search goes through a body once, from the front, and remembers the latest line that was a hit. So it finds the greatest
hit, and nothing only where there is none (§1).

The search for a call has more to say. What it looks for is not what it was asked for but that under other names, and
there may be no other names. Then it fails, with the error of whoever should have known them, and does not look at the
body at all. Finding nothing is an answer, and a different one (§3).
-/

namespace ClassFile

open Names (internal)
open Naming (Translator)

/-! ## §1  The greatest hit -/

namespace Found

theorem lastOf_append (p : Instruction Label → Bool) (n : Nat) (best : Option Found) (items more : List Item) :
    lastOf p n best (items ++ more) = lastOf p (n + items.length) (lastOf p n best items) more := by
  induction items generalizing n best with
  | nil => rfl
  | cons item items ih =>
      rw [List.length_cons, Nat.add_comm items.length, ← Nat.add_assoc]
      cases item with
      | label l => exact ih (n + 1) best
      | instruction i => exact ih (n + 1) _

end Found

/-- The lines with an instruction that satisfies `p`. -/
def hits (p : Instruction Label → Bool) (items : List Item) : Set Nat :=
  {k | ∃ i, items[k]? = some (.instruction i) ∧ p i = true}

section Hits

variable {p : Instruction Label → Bool} {items : List Item}

theorem lt_of_mem_hits {k : Nat} (h : k ∈ hits p items) : k < items.length := by
  obtain ⟨i, hi, -⟩ := h
  exact (List.getElem?_eq_some_iff.mp hi).1

theorem mem_hits_append {more : List Item} {k : Nat} (h : k < items.length) :
    k ∈ hits p (items ++ more) ↔ k ∈ hits p items := by
  simp only [hits, Set.mem_ofPred_eq, List.getElem?_append_left h]

theorem mem_hits_concat {item : Item} {k : Nat} : k ∈ hits p (items ++ [item]) ↔
    k ∈ hits p items ∨ (k = items.length ∧ ∃ i, item = .instruction i ∧ p i = true) := by
  rcases Nat.lt_trichotomy k items.length with hk | rfl | hk
  · rw [mem_hits_append hk]
    exact ⟨.inl, fun h => h.resolve_right fun h => Nat.ne_of_lt hk h.1⟩
  · simp [hits]
  · constructor
    · intro h
      have hlt := lt_of_mem_hits h
      rw [List.length_append, List.length_singleton] at hlt
      omega
    · rintro (h | ⟨rfl, -⟩)
      · exact absurd (lt_of_mem_hits h) (by omega)
      · exact absurd hk (Nat.lt_irrefl _)

/-- The last line is a hit, and then it is what is found, or it makes no difference. -/
theorem Found.lastOf_cases (p : Instruction Label → Bool) (items : List Item) :
    (lastOf p 0 none items = none ∧ hits p items = ∅) ∨
      ∃ f, lastOf p 0 none items = some f ∧ IsGreatest (hits p items) f.index ∧
        items[f.index]? = some (.instruction f.instruction) := by
  induction items using List.reverseRecOn with
  | nil => exact .inl ⟨rfl, by ext k; simp [hits]⟩
  | append_singleton items item ih =>
      rw [lastOf_append, Nat.zero_add]
      by_cases hitem : ∃ i, item = .instruction i ∧ p i = true
      · obtain ⟨i, rfl, hi⟩ := hitem
        refine .inr ⟨⟨items.length, i⟩, by rw [lastOf, if_pos hi, lastOf], ⟨?_, ?_⟩, by simp⟩
        · exact mem_hits_concat.mpr (.inr ⟨rfl, i, rfl, hi⟩)
        · intro k hk
          have hlt := lt_of_mem_hits hk
          rw [List.length_append, List.length_singleton] at hlt
          exact Nat.le_of_lt_succ hlt
      · have hsame : ∀ best, lastOf p items.length best [item] = best := by
          intro best
          cases item with
          | label l => rfl
          | instruction i => rw [lastOf, if_neg fun hi => hitem ⟨i, rfl, hi⟩, lastOf]
        have hhits : hits p (items ++ [item]) = hits p items := by
          ext k
          rw [mem_hits_concat]
          exact ⟨fun h => h.resolve_right fun h => hitem h.2, .inl⟩
        rw [hsame, hhits]
        refine ih.imp_right ?_
        rintro ⟨f, hf, hgreatest, hitem⟩
        refine ⟨f, hf, hgreatest, ?_⟩
        rwa [List.getElem?_append_left (lt_of_mem_hits hgreatest.1)]

end Hits

namespace Method

variable {m : Method} {p : Instruction Label → Bool}

/-- A search finds the greatest hit. -/
theorem findLast_eq_some {f : Found} : m.findLast p = some f ↔
    IsGreatest (hits p m.items) f.index ∧ m.items[f.index]? = some (.instruction f.instruction) := by
  rw [findLast]
  rcases Found.lastOf_cases p m.items with ⟨hnone, hhits⟩ | ⟨g, hg, hgreatest, hline⟩
  · simp [hnone, hhits, IsGreatest]
  · rw [hg, Option.some.injEq]
    constructor
    · rintro rfl
      exact ⟨hgreatest, hline⟩
    · rintro ⟨hgreatest', hline'⟩
      obtain ⟨k, i⟩ := f
      obtain ⟨l, j⟩ := g
      obtain rfl : l = k := hgreatest.unique hgreatest'
      obtain rfl : j = i := by simpa [hline] using hline'
      rfl

theorem findLast_eq_none : m.findLast p = none ↔ hits p m.items = ∅ := by
  rw [findLast]
  rcases Found.lastOf_cases p m.items with ⟨hnone, hhits⟩ | ⟨g, hg, hgreatest, -⟩
  · simp [hnone, hhits]
  · have hne : hits p m.items ≠ ∅ := Set.nonempty_iff_ne_empty.mp ⟨_, hgreatest.1⟩
    simp [hg, hne]

/-- A search with more hits finds no smaller line. -/
theorem findLast_mono {p' : Instruction Label → Bool} (h : ∀ i, p i = true → p' i = true) {f : Found}
    (hf : m.findLast p = some f) : ∃ f', m.findLast p' = some f' ∧ f.index ≤ f'.index := by
  obtain ⟨⟨⟨i, hi, hpi⟩, -⟩, -⟩ := findLast_eq_some.mp hf
  have hmem : f.index ∈ hits p' m.items := ⟨i, hi, h i hpi⟩
  cases hf' : m.findLast p' with
  | none =>
      rw [findLast_eq_none] at hf'
      rw [hf'] at hmem
      exact hmem.elim
  | some f' => exact ⟨f', rfl, (findLast_eq_some.mp hf').1.2 hmem⟩

end Method

/-! ## §2  Names that nobody knows -/

namespace Naming

theorem exists_of_mapClassNames_error {lookup : String → Except Error String} {descriptor : String} {e : Error}
    (h : mapClassNames lookup descriptor = .error e) : ∃ n, lookup n = .error e := by
  rw [mapClassNames, except_bind_eq_error] at h
  rcases h with h | ⟨pieces, -, h⟩
  · obtain ⟨s, -, hs⟩ := exists_of_except_mapM_eq_error h
    cases s with
    | literal c => cases hs
    | className name =>
        rw [Segment.mapName, except_bind_eq_error] at hs
        rcases hs with hs | ⟨r, -, hs⟩
        · exact ⟨_, hs⟩
        · cases hs
  · cases h

namespace Translator

variable {names : Translator} {lookupClass : String → Except HostFault String} {e : Error}

theorem unknown_of_className {name : String} (h : names.className lookupClass name = .error e) :
    ∃ symbol source, e = .unknownMapping symbol source := by
  rw [className] at h
  split at h
  · cases h
  · split at h
    · cases h
    · exact ⟨_, _, (Except.error.inj h).symm⟩

theorem unknown_of_descriptor {text : String} (h : names.descriptor lookupClass text = .error e) :
    ∃ symbol source, e = .unknownMapping symbol source := by
  rw [descriptor] at h
  split at h
  · cases h
  · obtain ⟨n, hn⟩ := exists_of_mapClassNames_error h
    exact unknown_of_className hn

/-- A translator fails in one way only. -/
theorem unknown_of_member {lookupMember : MemberRef → Except HostFault String} {symbol : MemberRef → String}
    {m : MemberRef} (h : names.member lookupClass lookupMember symbol m = .error e) :
    ∃ symbol source, e = .unknownMapping symbol source := by
  rw [member] at h
  split at h
  · cases h
  · split at h
    · exact ⟨_, _, (Except.error.inj h).symm⟩
    · simp only [except_bind_eq_error] at h
      rcases h with h | ⟨owner, -, h | ⟨descriptor, -, h⟩⟩
      · exact unknown_of_className h
      · exact unknown_of_descriptor h
      · cases h

end Translator

end Naming

/-! ## §3  The search for a call -/

namespace Method

/-- The line calls the method that is looked for, where it is called `target`. Only if the query allows it, the owner may
be the one that was given instead. -/
def CallsAt (m : Method) (q : CallQuery) (target : MemberRef) (k : Nat) : Prop :=
  ∃ owner isInterface,
    m.items[k]? = some (.instruction (.call q.opcode ⟨owner, target.name, target.descriptor⟩ isInterface)) ∧
      (owner = target.owner ∨ q.allowGivenOwner = true ∧ owner = internal q.owner)

theorem isAnsweredBy_iff {q : CallQuery} {target : MemberRef} {i : Instruction Label} :
    q.isAnsweredBy target i = true ↔ ∃ owner isInterface,
      i = .call q.opcode ⟨owner, target.name, target.descriptor⟩ isInterface ∧
        (owner = target.owner ∨ q.allowGivenOwner = true ∧ owner = internal q.owner) := by
  cases i with
  | call op c isInterface =>
      obtain ⟨owner, name, descriptor⟩ := c
      simp only [CallQuery.isAnsweredBy, Bool.and_eq_true, Bool.or_eq_true, beq_iff_eq,
        Instruction.call.injEq, MemberRef.mk.injEq]
      constructor
      · rintro ⟨⟨⟨rfl, rfl⟩, rfl⟩, howner⟩
        exact ⟨owner, isInterface, ⟨rfl, ⟨rfl, rfl, rfl⟩, rfl⟩, howner⟩
      · rintro ⟨owner', isInterface', ⟨rfl, ⟨rfl, rfl, rfl⟩, rfl⟩, howner⟩
        exact ⟨⟨⟨rfl, rfl⟩, rfl⟩, howner⟩
  | _ => simp [CallQuery.isAnsweredBy]

theorem isAnsweredBy_of_given {q : CallQuery} {target : MemberRef} {i : Instruction Label}
    (h : CallQuery.isAnsweredBy { q with allowGivenOwner := false } target i = true) :
    CallQuery.isAnsweredBy { q with allowGivenOwner := true } target i = true := by
  obtain ⟨owner, isInterface, rfl, howner⟩ := isAnsweredBy_iff.mp h
  exact isAnsweredBy_iff.mpr ⟨owner, isInterface, rfl, howner.imp_right fun h => ⟨rfl, h.2⟩⟩

theorem hits_isAnsweredBy (m : Method) (q : CallQuery) (target : MemberRef) :
    hits (q.isAnsweredBy target) m.items = {k | m.CallsAt q target k} := by
  ext k
  simp only [hits, CallsAt, Set.mem_ofPred_eq, isAnsweredBy_iff]
  constructor
  · rintro ⟨i, hi, owner, isInterface, rfl, howner⟩
    exact ⟨owner, isInterface, hi, howner⟩
  · rintro ⟨owner, isInterface, hi, howner⟩
    exact ⟨_, hi, owner, isInterface, rfl, howner⟩

theorem CallQuery.method?_eq_none {q : CallQuery} : q.method? = none ↔ '(' ∉ q.signature.toList := by
  simp [CallQuery.method?]

/-- The name of the method ends where its descriptor starts, at the first parenthesis. -/
theorem CallQuery.method?_eq_some {q : CallQuery} {name descriptor : List Char} (hname : '(' ∉ name)
    (h : q.signature.toList = name ++ '(' :: descriptor) :
    q.method? = some ⟨q.owner, String.ofList name, String.ofList ('(' :: descriptor)⟩ := by
  have htake : (name ++ '(' :: descriptor).takeWhile (· != '(') = name := by
    rw [List.takeWhile_append_of_pos fun c hc => by simpa using fun h : c = '(' => hname (h ▸ hc)]
    simp
  have hdrop : (name ++ '(' :: descriptor).dropWhile (· != '(') = '(' :: descriptor := by
    rw [List.dropWhile_append_of_pos fun c hc => by simpa using fun h : c = '(' => hname (h ▸ hc)]
    simp
  simp only [CallQuery.method?, h, htake, hdrop]
  simp

theorem findLastCall_of_none {m : Method} {names : Translator} {q : CallQuery} (h : '(' ∉ q.signature.toList) :
    m.findLastCall names q = .error (.malformedDescriptor q.signature .noMethodName) := by
  rw [findLastCall, CallQuery.method?_eq_none.mpr h]
  rfl

theorem findLastCall_of_some {m : Method} {names : Translator} {q : CallQuery} {r : MemberRef}
    (h : q.method? = some r) : m.findLastCall names q =
      names.runtimeMethod r >>= fun target => .ok (m.findLast (q.isAnsweredBy target)) := by
  rw [findLastCall, h]
  rfl

/-- **The search for a call.** Without a parenthesis there is no descriptor, and that is the only way in which the query
itself is at fault. Otherwise the search fails exactly if the method has no name here, with that error. If it has one,
the search finds the greatest line that calls it, and nothing exactly if no line does. With more owners to choose from no
smaller line is found. -/
theorem findLastCall_finds (m : Method) (names : Translator) (q : CallQuery) :
    (∀ text reason, m.findLastCall names q = .error (.malformedDescriptor text reason) ↔
      '(' ∉ q.signature.toList ∧ text = q.signature ∧ reason = .noMethodName) ∧
    (∀ name descriptor : List Char, '(' ∉ name → q.signature.toList = name ++ '(' :: descriptor →
      (∀ e, m.findLastCall names q = .error e ↔
        names.runtimeMethod ⟨q.owner, String.ofList name, String.ofList ('(' :: descriptor)⟩ = .error e) ∧
      ∀ target,
        names.runtimeMethod ⟨q.owner, String.ofList name, String.ofList ('(' :: descriptor)⟩ = .ok target →
        (∀ k i, m.findLastCall names q = .ok (some ⟨k, i⟩) ↔
          IsGreatest {k | m.CallsAt q target k} k ∧ m.items[k]? = some (.instruction i)) ∧
        (m.findLastCall names q = .ok none ↔ ∀ k, ¬ m.CallsAt q target k)) ∧
    ∀ f, m.findLastCall names { q with allowGivenOwner := false } = .ok (some f) →
      ∃ f', m.findLastCall names { q with allowGivenOwner := true } = .ok (some f') ∧ f.index ≤ f'.index := by
  refine ⟨fun text reason => ?_, fun name descriptor hname hsignature => ?_, fun f hf => ?_⟩
  · constructor
    · intro h
      cases hmethod : q.method? with
      | none =>
          have hnone := CallQuery.method?_eq_none.mp hmethod
          rw [findLastCall_of_none hnone] at h
          obtain ⟨rfl, rfl⟩ := Error.malformedDescriptor.inj (Except.error.inj h)
          exact ⟨hnone, rfl, rfl⟩
      | some r =>
          -- A translator has nothing to say about descriptors, so the error would have to come from the query.
          rw [findLastCall_of_some hmethod, except_bind_eq_error] at h
          rcases h with h | ⟨target, -, h⟩
          · obtain ⟨symbol, source, h⟩ := Translator.unknown_of_member h
            cases h
          · cases h
    · rintro ⟨hnone, rfl, rfl⟩
      exact findLastCall_of_none hnone
  · rw [findLastCall_of_some (CallQuery.method?_eq_some hname hsignature)]
    constructor
    · intro e
      rw [except_bind_eq_error]
      constructor
      · rintro (h | ⟨target, -, h⟩)
        · exact h
        · cases h
      · exact .inl
    · intro target htarget
      rw [htarget]
      show (∀ k i, Except.ok (m.findLast (q.isAnsweredBy target)) = .ok (some ⟨k, i⟩) ↔ _) ∧
        (Except.ok (m.findLast (q.isAnsweredBy target)) = .ok none ↔ _)
      constructor
      · intro k i
        rw [Except.ok.injEq, findLast_eq_some, hits_isAnsweredBy]
      · rw [Except.ok.injEq, findLast_eq_none, hits_isAnsweredBy, Set.eq_empty_iff_forall_notMem]
        rfl
  · -- Both queries ask for the same method, which has a name if one of them is answered.
    cases hmethod : q.method? with
    | none =>
        have hnone := CallQuery.method?_eq_none.mp hmethod
        rw [findLastCall_of_none (q := { q with allowGivenOwner := false }) hnone] at hf
        cases hf
    | some r =>
        rw [findLastCall_of_some (q := { q with allowGivenOwner := false }) hmethod] at hf
        rw [findLastCall_of_some (q := { q with allowGivenOwner := true }) hmethod]
        obtain ⟨target, htarget, hf⟩ := except_bind_eq_ok.mp hf
        obtain ⟨f', hf', hle⟩ := findLast_mono (fun _ => isAnsweredBy_of_given) (Except.ok.inj hf)
        exact ⟨f', except_bind_eq_ok.mpr ⟨target, htarget, congrArg Except.ok hf'⟩, hle⟩

/-- Knows the one class that was renamed, and no method called `lost`. -/
def helperNames : Naming.Oracle where
  runtimeClass n := if n = "demo/Helper" then .ok "zz" else .error (.service "no such class")
  canonicalClass n := if n = "zz" then .ok "demo/Helper" else .error (.service "no such class")
  runtimeMethod m := if m.name = "lost" then .error (.service "no such method") else .ok m.name
  canonicalMethod m := .ok m.name
  runtimeField m := .ok m.name
  canonicalField m := .ok m.name

/-- Calls a method under its runtime owner, under its canonical one, and as what it is not. -/
def callsHelper : Method :=
  { bare ⟨9⟩ "caller" "()V" with
    code := some {
      maxStack := 1
      maxLocals := 0
      items := [.label ⟨0⟩, .instruction (.call Opcode.invokestatic ⟨"zz", "h", "()V"⟩ false), .label ⟨1⟩,
        .instruction (.call Opcode.invokestatic ⟨"demo/Helper", "h", "()V"⟩ false),
        .instruction (.call Opcode.invokevirtual ⟨"zz", "h", "()V"⟩ false)]
      handlers := []
      attributes := []
      order := [] } }

/-- The owner as given makes the second call a hit too. A class or a method that nobody knows is an error, and a method
that nobody calls is not. -/
theorem findLastCall_callsHelper :
    let names : Translator := ⟨.obfuscated, helperNames⟩
    callsHelper.findLastCall names ⟨"demo.Helper", "h()V", Opcode.invokestatic, false⟩ =
        .ok (some ⟨1, .call Opcode.invokestatic ⟨"zz", "h", "()V"⟩ false⟩) ∧
      (∃ f, callsHelper.findLastCall names ⟨"demo.Helper", "h()V", Opcode.invokestatic, true⟩ = .ok (some f) ∧
        1 ≤ f.index) ∧
      callsHelper.findLastCall names ⟨"demo.Helper", "g()V", Opcode.invokestatic, true⟩ = .ok none ∧
      callsHelper.findLastCall names ⟨"demo.Helper", "lost()V", Opcode.invokestatic, true⟩ =
        .error (.unknownMapping "demo/Helper.lost()V" (.service "no such method")) ∧
      callsHelper.findLastCall names ⟨"demo.Helper", "h(Lno;)V", Opcode.invokestatic, true⟩ =
        .error (.unknownMapping "no" (.service "no such class")) ∧
      callsHelper.findLastCall names ⟨"demo.Helper", "h", Opcode.invokestatic, true⟩ =
        .error (.malformedDescriptor "h" .noMethodName) := by
  intro names
  have finds := fun signature flag => findLastCall_finds callsHelper names
    ⟨"demo.Helper", signature, Opcode.invokestatic, flag⟩
  have hfound : callsHelper.findLastCall names ⟨"demo.Helper", "h()V", Opcode.invokestatic, false⟩ =
      .ok (some ⟨1, .call Opcode.invokestatic ⟨"zz", "h", "()V"⟩ false⟩) := by
    refine (((finds "h()V" false).2.1 ['h'] [')', 'V'] (by decide) (by decide)).2 ⟨"zz", "h", "()V"⟩
      (by decide +kernel)).1 _ _ |>.mpr ⟨⟨⟨"zz", false, rfl, .inl rfl⟩, ?_⟩, rfl⟩
    -- The later calls have another owner, or another opcode.
    rintro k ⟨owner, isInterface, hline, howner⟩
    match k, hline with
    | 0, _ | 1, _ => omega
    | 2, hline => cases hline
    | 3, hline =>
        cases hline
        revert howner
        decide
    | 4, hline => cases hline
  obtain ⟨f, hf, hle⟩ := (finds "h()V" false).2.2 _ hfound
  refine ⟨hfound, ⟨f, hf, hle⟩, ?_, ?_, ?_, ?_⟩
  · refine (((finds "g()V" true).2.1 ['g'] [')', 'V'] (by decide) (by decide)).2 ⟨"zz", "g", "()V"⟩
      (by decide +kernel)).2.mpr ?_
    rintro k ⟨owner, isInterface, hline, -⟩
    have hitem := List.mem_of_getElem? hline
    simp [items, callsHelper] at hitem
  · exact (((finds "lost()V" true).2.1 ['l', 'o', 's', 't'] [')', 'V'] (by decide) (by decide)).1 _).mpr
      (by decide +kernel)
  · exact (((finds "h(Lno;)V" true).2.1 ['h'] ['L', 'n', 'o', ';', ')', 'V'] (by decide) (by decide)).1 _).mpr
      (by decide +kernel)
  · exact ((finds "h" true).1 "h" .noMethodName).mpr ⟨by decide, rfl, rfl⟩

end Method

end ClassFile
