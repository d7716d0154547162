import ClassFile.Assignable
import Mathlib.Data.List.Basic
/-!
# Chains of superclasses

The classes above a class are its chain: each is what the superclass of the one before it resolves to (§1). A walk
goes up the chain and ends at the first class where something happens. Five things can happen, one before the other
(§2): the chain has come back to a name it had before, it is longer than is allowed, the class hits the target, the
chain ends, or its next class cannot be resolved.

The invariant of the walk is that after `i` rounds it stands at class `i` of the chain, has `i` rounds fewer to go, and
has visited the names of the classes below (§3).
-/

namespace ClassFile

/-! ## §1  The chain -/

/-- A class hits the target by its own name, by that of its superclass, or by that of an interface it lists. -/
theorem ClassView.hits_iff {v : ClassView} {target : String} :
    v.hits target = true ↔ v.name = target ∨ v.superclass? = some target ∨ target ∈ v.interfaces := by
  simp only [hits, Bool.or_eq_true, beq_iff_eq, List.contains_iff_mem, or_assoc]

namespace Resolver

/-- What the superclass of a class resolves to. Nothing is resolved at the end of a chain: there the class has no
superclass, or its superclass is the root. -/
def above (r : Resolver) (v : ClassView) : Option (Except Error ClassView) :=
  match v.superclass? with
  | none => none
  | some name => if name = rootClass then none else some (r.resolve name)

/-- The class that stands `i` places above `child`. -/
def chain (r : Resolver) (child : ClassView) : (i : Nat) → Option ClassView
  | 0 => some child
  | i + 1 => do
      let v ← chain r child i
      let next ← r.above v
      next.toOption

/-- The names of the classes of the chain below place `i`. -/
def namesBelow (r : Resolver) (child : ClassView) (i : Nat) : List String :=
  (List.range i).filterMap fun j => (r.chain child j).map ClassView.name

variable {r : Resolver} {child v : ClassView} {i : Nat}

theorem chain_succ {next : ClassView} (hv : r.chain child i = some v) (hnext : r.above v = some (.ok next)) :
    r.chain child (i + 1) = some next := by
  rw [chain, hv]
  simp [hnext, Except.toOption]

theorem mem_namesBelow_succ (hv : r.chain child i = some v) {name : String} :
    name ∈ r.namesBelow child (i + 1) ↔ name ∈ r.namesBelow child i ∨ v.name = name := by
  simp [namesBelow, List.range_succ, hv, eq_comm]

/-! ## §2  What happens at a class -/

/-- What ends a walk to `target` at the class `v`, at place `i` of the chain of `child`; none where the walk goes on. -/
def event? (r : Resolver) (target : String) (child : ClassView) (maxDepth i : Nat) (v : ClassView) :
    Option (Except Error Bool) :=
  if v.name ∈ r.namesBelow child i then some (.error (.cycleDetected v.name))
  else if i + 1 > maxDepth then some (.error (.hierarchyTooDeep child.name maxDepth))
  else if v.hits target then some (.ok true)
  else
    match r.above v with
    | none => some (.ok false)
    | some (.error e) => some (.error e)
    | some (.ok _) => none

variable {target : String} {maxDepth : Nat}

/-- A walk goes on where the name is new, the limit is not reached, there is no hit, and there is a class above. -/
theorem event?_eq_none : r.event? target child maxDepth i v = none ↔
    v.name ∉ r.namesBelow child i ∧ i < maxDepth ∧ v.hits target = false ∧ ∃ next, r.above v = some (.ok next) := by
  unfold event?
  by_cases hname : v.name ∈ r.namesBelow child i
  · simp [hname]
  · by_cases hdeep : maxDepth < i + 1
    · simp [hname, hdeep]
      omega
    · have hi : i < maxDepth := by omega
      by_cases hhit : v.hits target = true
      · simp [hname, hdeep, hhit]
      · rcases habove : r.above v with _ | ⟨e | next⟩ <;> simp [hname, hdeep, hhit, hi]

/-- Only a hit is answered with yes. -/
theorem hits_of_event? (h : r.event? target child maxDepth i v = some (.ok true)) : v.hits target = true := by
  unfold event? at h
  split at h
  · cases h
  · split at h
    · cases h
    · split at h
      · assumption
      · split at h <;> cases h

/-- Only the end of the chain is answered with no. -/
theorem above_of_event? (h : r.event? target child maxDepth i v = some (.ok false)) :
    v.hits target = false ∧ r.above v = none := by
  unfold event? at h
  split at h
  · cases h
  · split at h
    · cases h
    · split at h
      · cases h
      · split at h
        · exact ⟨by simpa using ‹¬v.hits target = true›, ‹_›⟩
        · cases h
        · cases h

/-! ## §3  One round, and all of them -/

/-- The walk stands at the class `v`, at place `i` of the chain: it has visited the classes below and has the other
rounds before it. -/
structure Stands (r : Resolver) (child : ClassView) (maxDepth i rounds : Nat) (visited : Std.HashSet String)
    (v : ClassView) : Prop where
  at_class : r.chain child i = some v
  rounds_eq : rounds + i = maxDepth
  visited_iff : ∀ name, visited.contains name = true ↔ name ∈ r.namesBelow child i

theorem stands_child : r.Stands child maxDepth 0 maxDepth ∅ child where
  at_class := rfl
  rounds_eq := rfl
  visited_iff name := by simp [namesBelow]

variable {rounds : Nat} {visited : Std.HashSet String}

/-- One place up, the class just left is among the visited ones. -/
theorem Stands.up {next : ClassView} (h : r.Stands child maxDepth i (rounds + 1) visited v)
    (hnext : r.above v = some (.ok next)) :
    r.Stands child maxDepth (i + 1) rounds (visited.insert v.name) next where
  at_class := chain_succ h.at_class hnext
  rounds_eq := by
    have := h.rounds_eq
    omega
  visited_iff name := by
    rw [mem_namesBelow_succ h.at_class, Std.HashSet.contains_insert, Bool.or_eq_true, beq_iff_eq, h.visited_iff, or_comm]

/-- With no rounds left a walk answers only that it came back or went too far. -/
theorem walk_zero : r.walk target child.name maxDepth 0 visited v =
    if visited.contains v.name then .error (.cycleDetected v.name)
    else .error (.hierarchyTooDeep child.name maxDepth) := by
  rw [walk]

/-- With a round left a walk that is at a new class looks at it, and then at what is above. -/
theorem walk_succ : r.walk target child.name maxDepth (rounds + 1) visited v =
    if visited.contains v.name then .error (.cycleDetected v.name)
    else if v.hits target then .ok true
    else
      match r.above v with
      | none => .ok false
      | some (.error e) => .error e
      | some (.ok next) => r.walk target child.name maxDepth rounds (visited.insert v.name) next := by
  rw [walk, above]
  cases v.superclass? with
  | none => rfl
  | some name =>
      by_cases hroot : name = rootClass
      · simp only [hroot, beq_self_eq_true, if_true]
      · simp only [beq_false_of_ne hroot, hroot, if_false, Bool.false_eq_true]
        cases r.resolve name <;> rfl

/-- One round answers what happens at the class it stands at, or goes one place up where nothing happens. -/
theorem walk_round (target : String) (h : r.Stands child maxDepth i rounds visited v) :
    r.event? target child maxDepth i v = some (r.walk target child.name maxDepth rounds visited v) ∨
    r.event? target child maxDepth i v = none ∧ ∃ below next, rounds = below + 1 ∧ r.above v = some (.ok next) ∧
      r.walk target child.name maxDepth rounds visited v =
        r.walk target child.name maxDepth below (visited.insert v.name) next := by
  have hrounds := h.rounds_eq
  unfold event?
  by_cases hname : v.name ∈ r.namesBelow child i
  · have hvisited := (h.visited_iff v.name).mpr hname
    left
    cases rounds with
    | zero => rw [walk_zero, if_pos hname, if_pos hvisited]
    | succ below => rw [walk_succ, if_pos hname, if_pos hvisited]
  · have hvisited : ¬visited.contains v.name = true := fun hc => hname ((h.visited_iff v.name).mp hc)
    rw [if_neg hname]
    cases rounds with
    | zero =>
        left
        rw [walk_zero, if_neg hvisited, if_pos (by omega)]
    | succ below =>
        rw [walk_succ, if_neg hvisited, if_neg (by omega)]
        by_cases hhit : v.hits target = true
        · left
          rw [if_pos hhit, if_pos hhit]
        · rw [if_neg hhit, if_neg hhit]
          rcases habove : r.above v with _ | ⟨e | next⟩
          · exact .inl rfl
          · exact .inl rfl
          · exact .inr ⟨rfl, below, next, rfl, rfl, rfl⟩

/-- From any place of the chain on, the walk answers the first thing that happens, within the rounds it has left. -/
theorem walk_firstEvent (target : String) (h : r.Stands child maxDepth i rounds visited v) :
    ∃ n u, i ≤ n ∧ n ≤ maxDepth ∧ r.chain child n = some u ∧
      r.event? target child maxDepth n u = some (r.walk target child.name maxDepth rounds visited v) ∧
      ∀ j, i ≤ j → j < n → ∃ w, r.chain child j = some w ∧ r.event? target child maxDepth j w = none := by
  induction rounds generalizing i visited v with
  | zero =>
      have hi := h.rounds_eq
      rcases walk_round target h with hanswer | ⟨-, below, -, hrounds, -, -⟩
      · exact ⟨i, v, Nat.le_refl i, by omega, h.at_class, hanswer, by omega⟩
      · cases hrounds
  | succ rounds ih =>
      have hi := h.rounds_eq
      rcases walk_round target h with hanswer | ⟨hnone, below, next, hrounds, hnext, hwalk⟩
      · exact ⟨i, v, Nat.le_refl i, by omega, h.at_class, hanswer, by omega⟩
      · obtain rfl : rounds = below := by omega
        obtain ⟨n, u, hin, hn, hu, hevent, hbefore⟩ := ih (h.up hnext)
        rw [hwalk]
        refine ⟨n, u, by omega, hn, hu, hevent, fun j hij hj => ?_⟩
        rcases Nat.eq_or_lt_of_le hij with rfl | hlt
        · exact ⟨v, h.at_class, hnone⟩
        · exact hbefore j (by omega) hj

/-! ## §4  The answer -/

/-- The answer is what happens first on the way up from `child`, at one of the first `maxDepth + 1` places. -/
def First (r : Resolver) (target : String) (child : ClassView) (maxDepth : Nat) (answer : Except Error Bool) (i : Nat)
    (v : ClassView) : Prop :=
  i < maxDepth + 1 ∧ r.chain child i = some v ∧ r.event? target child maxDepth i v = some answer ∧
    ∀ j < i, ∃ u, r.chain child j = some u ∧ r.event? target child maxDepth j u = none

variable {answer answer' : Except Error Bool}

/-- What happens first happens at one place. -/
theorem First.unique {i' : Nat} {v' : ClassView} (h : r.First target child maxDepth answer i v)
    (h' : r.First target child maxDepth answer' i' v') : answer = answer' := by
  obtain ⟨-, hv, hevent, hbefore⟩ := h
  obtain ⟨-, hv', hevent', hbefore'⟩ := h'
  rcases Nat.lt_trichotomy i i' with hlt | rfl | hlt
  · obtain ⟨u, hu, hnone⟩ := hbefore' i hlt
    rw [hv, Option.some.injEq] at hu
    rw [hu, hnone] at hevent
    cases hevent
  · rw [hv, Option.some.injEq] at hv'
    rw [hv', hevent', Option.some.injEq] at hevent
    exact hevent.symm
  · obtain ⟨u, hu, hnone⟩ := hbefore i' hlt
    rw [hv', Option.some.injEq] at hu
    rw [hu, hnone] at hevent'
    cases hevent'

theorem exists_first (r : Resolver) (maxDepth : Nat) (parent child : ClassView) :
    ∃ i v, r.First parent.name child maxDepth (r.isAssignableFrom maxDepth parent child) i v := by
  obtain ⟨i, v, -, hi, hv, hevent, hbefore⟩ := walk_firstEvent parent.name (stands_child (r := r))
  exact ⟨i, v, by omega, hv, hevent, fun j hj => hbefore j (Nat.zero_le j) hj⟩

/-- Two resolvers that resolve the superclasses below place `i` alike have the same chain up to there. -/
theorem chain_congr {r' : Resolver} (halike : ∀ j < i, ∀ u, r.chain child j = some u → r'.above u = r.above u) :
    ∀ j ≤ i, r'.chain child j = r.chain child j := by
  intro j hj
  induction j with
  | zero => rfl
  | succ j ih =>
      rw [chain, chain, ih (by omega)]
      cases hu : r.chain child j with
      | none => rfl
      | some u => simp [halike j (by omega) u hu]

/-- What is above a class matters for what happens at it only where it is not hit. -/
theorem event?_congr {r' : Resolver} (hchain : ∀ j < i, r'.chain child j = r.chain child j)
    (habove : r.event? target child maxDepth i v = some (.ok true) ∨ r'.above v = r.above v) :
    r'.event? target child maxDepth i v = r.event? target child maxDepth i v := by
  have hnames : r'.namesBelow child i = r.namesBelow child i := by
    unfold namesBelow
    refine List.filterMap_congr fun j hj => ?_
    rw [hchain j (List.mem_range.mp hj)]
  rcases habove with hyes | habove
  · have hhit : v.hits target = true := hits_of_event? hyes
    rw [event?, event?, hnames, if_pos hhit, if_pos hhit]
  · rw [event?, event?, hnames, habove]

/-- A resolver that resolves the superclasses on the way to the first event alike gives the same answer. -/
theorem First.congr {r' : Resolver} (h : r.First target child maxDepth answer i v)
    (halike : ∀ j < i, ∀ u, r.chain child j = some u → r'.above u = r.above u)
    (habove : answer = .ok true ∨ r'.above v = r.above v) : r'.First target child maxDepth answer i v := by
  have hchain := chain_congr halike
  obtain ⟨hi, hv, hevent, hbefore⟩ := h
  refine ⟨hi, (hchain i (Nat.le_refl i)).trans hv, ?_, fun j hj => ?_⟩
  · have hneeded : r.event? target child maxDepth i v = some (.ok true) ∨ r'.above v = r.above v :=
      habove.imp_left fun hanswer => by rw [hevent, hanswer]
    rw [event?_congr (fun j hj => hchain j (by omega)) hneeded, hevent]
  · obtain ⟨u, hu, hnone⟩ := hbefore j hj
    refine ⟨u, (hchain j (by omega)).trans hu, ?_⟩
    rw [event?_congr (fun k hk => hchain k (by omega)) (.inr (halike j hj u hu)), hnone]

/-- What an answer about `target` tells about the chain of `child`. -/
structure ToldByChain (r : Resolver) (target : String) (child : ClassView) (maxDepth : Nat)
    (answer : Except Error Bool) : Prop where
  /-- It is what happens first on the way up, and something does within `maxDepth + 1` rounds. -/
  first : ∃ i v, r.First target child maxDepth answer i v
  /-- It is no only after the whole chain was resolved, to its end, without a hit. -/
  no_of_whole : answer = .ok false → ∃ n v, r.chain child n = some v ∧ r.above v = none ∧
    ∀ i ≤ n, ∃ u, r.chain child i = some u ∧ u.hits target = false
  /-- It is yes only where a class of the chain names the target itself, whatever the interfaces it lists name. -/
  yes_of_named : answer = .ok true → ∃ i v, r.chain child i = some v ∧
    (v.name = target ∨ v.superclass? = some target ∨ target ∈ v.interfaces) ∧
    ∀ j < i, ∃ u, r.chain child j = some u ∧ u.hits target = false

/-- **The answer is the first event on the way up.** Moreover a yes stays a yes whatever the classes above the hit are,
or if they are missing, and no answer depends on what anything but a superclass of the chain resolves to. -/
theorem isAssignableFrom_firstEvent (r : Resolver) (maxDepth : Nat) (parent child : ClassView) :
    r.ToldByChain parent.name child maxDepth (r.isAssignableFrom maxDepth parent child) ∧
    (∀ i v, r.First parent.name child maxDepth (.ok true) i v → ∀ r' : Resolver,
      (∀ j < i, ∀ u, r.chain child j = some u → r'.above u = r.above u) →
        r'.isAssignableFrom maxDepth parent child = .ok true) ∧
    ∀ r' : Resolver, (∀ i v, r.chain child i = some v → r'.above v = r.above v) →
      r'.isAssignableFrom maxDepth parent child = r.isAssignableFrom maxDepth parent child := by
  obtain ⟨n, v, hfirst⟩ := exists_first r maxDepth parent child
  refine ⟨⟨⟨n, v, hfirst⟩, fun hno => ?_, fun hyes => ?_⟩, fun i u hyes r' halike => ?_, fun r' halike => ?_⟩
  · obtain ⟨-, hv, hevent, hbefore⟩ := hfirst
    rw [hno] at hevent
    obtain ⟨hmiss, hend⟩ := above_of_event? hevent
    refine ⟨n, v, hv, hend, fun i hi => ?_⟩
    rcases Nat.eq_or_lt_of_le hi with rfl | hlt
    · exact ⟨v, hv, hmiss⟩
    · obtain ⟨u, hu, hnone⟩ := hbefore i hlt
      exact ⟨u, hu, (event?_eq_none.mp hnone).2.2.1⟩
  · obtain ⟨-, hv, hevent, hbefore⟩ := hfirst
    rw [hyes] at hevent
    refine ⟨n, v, hv, ClassView.hits_iff.mp (hits_of_event? hevent), fun j hj => ?_⟩
    obtain ⟨u, hu, hnone⟩ := hbefore j hj
    exact ⟨u, hu, (event?_eq_none.mp hnone).2.2.1⟩
  · obtain ⟨n', v', hfirst'⟩ := exists_first r' maxDepth parent child
    exact hfirst'.unique (hyes.congr halike (.inl rfl))
  · obtain ⟨n', v', hfirst'⟩ := exists_first r' maxDepth parent child
    exact hfirst'.unique (hfirst.congr (fun j _ => halike j) (.inr (halike n v hfirst.2.1)))

end Resolver
end ClassFile
