import ClassFile.Proofs.Pool.Growth
import Mathlib.Data.List.Forall2
/-!
# Numbers for names, given twice

A computation that numbers names and constants does two things at once: it answers, and it adds to the pool. For
all that is said about files afterwards only one pool matters, the last one, which is the one that is
written. So every such computation is *steady* (§1): it only adds to the pool, and when it is done again on
its result or on any later pool, it answers the same and adds nothing.

`m.Gives q a` says the second half: on `q` the answer is `a` and `q` stays as it is. §2 is what this means for
each kind of step, which is all that the proofs about written files use.
-/

namespace ClassFile

open Pool (Grows)

namespace Interning

variable {α β : Type}

/-! ## §1  Steady computations -/

/-- The answer on a pool, and the pool that is left. -/
def runOn (m : Interning α) (p : Pool) : Except Error α × Pool := m.run.run p

/-- A computation that only adds to the pool, and that finds all it needs in every later one. -/
class Steady (m : Interning α) : Prop where
  grows : ∀ p, Grows p (m.runOn p).2
  repeats : ∀ {p a p'}, m.runOn p = (.ok a, p') → ∀ {q}, Grows p' q → m.runOn q = (.ok a, q)

/-- On the pool `q` the answer is `a`, and nothing is added. -/
def Gives (m : Interning α) (q : Pool) (a : α) : Prop := m.runOn q = (.ok a, q)

theorem runOn_pure (a : α) (p : Pool) : (pure a : Interning α).runOn p = (.ok a, p) := rfl

theorem runOn_bind_ok {x : Interning α} (f : α → Interning β) {p p' : Pool} {a : α}
    (h : x.runOn p = (.ok a, p')) : (x >>= f).runOn p = (f a).runOn p' := by
  show (ExceptT.bind x f).run.run p = _
  simp only [ExceptT.bind, ExceptT.mk, ExceptT.run, StateT.run, bind, StateT.bind]
  rw [show x p = (.ok a, p') from h]
  rfl

theorem runOn_bind_error {x : Interning α} (f : α → Interning β) {p p' : Pool} {e : Error}
    (h : x.runOn p = (.error e, p')) : (x >>= f).runOn p = (.error e, p') := by
  show (ExceptT.bind x f).run.run p = _
  simp only [ExceptT.bind, ExceptT.mk, ExceptT.run, StateT.run, bind, StateT.bind]
  rw [show x p = (.error e, p') from h]
  rfl

theorem runOn_fail (reason : Unencodable) (p : Pool) :
    (fail reason : Interning α).runOn p = (.error (.unencodable reason), p) := rfl

theorem runOn_lift (x : Except Error α) (p : Pool) :
    (liftM x : Interning α).runOn p = (x, p) := rfl

theorem runOn_entry (e : Entry) (p : Pool) :
    (entry e).runOn p = match p.first[e]? with
      | some i => (.ok i, p)
      | none =>
          if p.size + e.width ≤ Pool.maxSlots then (.ok (UInt16.ofNat p.size), p.push e)
          else (.error (.unencodable .poolFull), p) := by
  show (entry e) p = _
  rw [entry, ExceptT.mk]
  rfl

/-- Found or added, an entry has its number from then on. -/
theorem first_of_runOn_entry {e : Entry} {p p' : Pool} {i : UInt16}
    (h : (entry e).runOn p = (.ok i, p')) : p'.first[e]? = some i := by
  rw [runOn_entry] at h
  split at h
  · rename_i j hj
    rw [Prod.mk.injEq, Except.ok.injEq] at h
    rw [← h.1, ← h.2]
    exact hj
  · rename_i hnone
    split at h
    · rw [Prod.mk.injEq, Except.ok.injEq] at h
      rw [← h.1, ← h.2, Pool.first_push, Std.HashMap.getElem?_insertIfNew, if_pos]
      exact ⟨by simp, by simpa using hnone⟩
    · cases h

theorem Steady.of_runOn {m : Interning α} {x : Except Error α} (h : ∀ p, m.runOn p = (x, p)) :
    Steady m where
  grows p := by
    rw [h]
    exact .refl p
  repeats {p a p'} hp q _ := by
    rw [h, Prod.mk.injEq] at hp
    rw [h, hp.1]

instance steady_pure (a : α) : Steady (pure a : Interning α) :=
  .of_runOn (runOn_pure a)

instance steady_fail (reason : Unencodable) : Steady (fail reason : Interning α) :=
  .of_runOn (runOn_fail reason)

instance steady_lift (x : Except Error α) : Steady (liftM x : Interning α) :=
  .of_runOn (runOn_lift x)

instance steady_bind (x : Interning α) (f : α → Interning β) [hx : Steady x]
    [hf : ∀ a, Steady (f a)] : Steady (x >>= f) where
  grows p := by
    have hp := hx.grows p
    match h : x.runOn p with
    | (.ok a, p') =>
        rw [h] at hp
        rw [runOn_bind_ok f h]
        exact hp.trans ((hf a).grows p')
    | (.error e, p') =>
        rw [h] at hp
        rw [runOn_bind_error f h]
        exact hp
  repeats {p b p'} hp q hq := by
    match h : x.runOn p with
    | (.ok a, p₁) =>
        rw [runOn_bind_ok f h] at hp
        have hgrows := (hf a).grows p₁
        rw [hp] at hgrows
        rw [runOn_bind_ok f (hx.repeats h (hgrows.trans hq))]
        exact (hf a).repeats hp hq
    | (.error e, p₁) =>
        rw [runOn_bind_error f h] at hp
        cases hp

instance steady_ite (c : Prop) [Decidable c] (x y : Interning α) [hx : Steady x] [hy : Steady y] :
    Steady (if c then x else y) := by
  split
  · exact hx
  · exact hy

instance steady_mapM (f : α → Interning β) [hf : ∀ a, Steady (f a)] (as : List α) :
    Steady (as.mapM f) := by
  induction as with
  | nil =>
      rw [List.mapM_nil]
      exact steady_pure []
  | cons a as ih =>
      rw [List.mapM_cons]
      exact steady_bind _ _

theorem steady_entry {e : Entry} (sound : e.Sound) (fits : e.Fits) : Steady (entry e) where
  grows p := by
    rw [runOn_entry]
    split
    · exact .refl p
    · split
      · rename_i room
        exact .push (.refl p) sound fits room
      · exact .refl p
  repeats {p i p'} hp q hq := by
    rw [runOn_entry, hq.first (first_of_runOn_entry hp)]

/-! ## §2  What is given -/

theorem Steady.gives {m : Interning α} [hm : Steady m] {p q : Pool} {a : α}
    (h : m.runOn p = (.ok a, q)) : m.Gives q a :=
  hm.repeats h (.refl q)

theorem Gives.unique {m : Interning α} {q : Pool} {a b : α} (h : m.Gives q a) (h' : m.Gives q b) :
    a = b := by
  have hab := h.symm.trans h'
  simpa using hab

@[simp] theorem gives_pure {a b : α} {q : Pool} : (pure a : Interning α).Gives q b ↔ a = b := by
  simp [Gives, runOn_pure]

@[simp] theorem gives_fail {reason : Unencodable} {a : α} {q : Pool} :
    (fail reason : Interning α).Gives q a ↔ False := by
  simp [Gives, runOn_fail]

@[simp] theorem gives_lift {x : Except Error α} {a : α} {q : Pool} :
    (liftM x : Interning α).Gives q a ↔ x = .ok a := by
  simp [Gives, runOn_lift]

@[simp] theorem gives_ite {c : Prop} [Decidable c] {x y : Interning α} {q : Pool} {a : α} :
    (if c then x else y).Gives q a ↔ if c then x.Gives q a else y.Gives q a := by
  split <;> rfl

/-- Both steps are done on one and the same pool, since none of them adds to it. -/
@[simp] theorem gives_bind {x : Interning α} {f : α → Interning β} [hx : Steady x]
    [hf : ∀ a, Steady (f a)] {q : Pool} {b : β} :
    (x >>= f).Gives q b ↔ ∃ a, x.Gives q a ∧ (f a).Gives q b := by
  constructor
  · intro h
    match hx' : x.runOn q with
    | (.ok a, p) =>
        rw [Gives, runOn_bind_ok f hx'] at h
        have hqp := hx.grows q
        have hpq := (hf a).grows p
        rw [hx'] at hqp
        rw [h] at hpq
        -- The pool between the two steps lies between `q` and `q`.
        have hp : p = q := hqp.antisymm hpq
        subst hp
        exact ⟨a, hx', h⟩
    | (.error e, p) =>
        rw [Gives, runOn_bind_error f hx'] at h
        cases h
  · rintro ⟨a, ha, hb⟩
    rw [Gives, runOn_bind_ok f ha]
    exact hb

theorem gives_entry {e : Entry} {q : Pool} {i : UInt16} :
    (entry e).Gives q i ↔ q.first[e]? = some i := by
  rw [Gives, runOn_entry]
  split
  · rename_i j hj
    simp [hj]
  · rename_i hnone
    rw [hnone]
    constructor
    · intro h
      split at h
      · rw [Prod.mk.injEq] at h
        have hsize := congrArg Pool.size h.2
        have hw := e.width_pos
        rw [Pool.size_push] at hsize
        omega
      · cases h
    · rintro ⟨⟩

theorem gives_mapM {f : α → Interning β} [hf : ∀ a, Steady (f a)] {as : List α} {bs : List β}
    {q : Pool} : (as.mapM f).Gives q bs ↔ List.Forall₂ (fun a b => (f a).Gives q b) as bs := by
  induction as generalizing bs with
  | nil =>
      rw [List.mapM_nil, gives_pure, List.forall₂_nil_left_iff, eq_comm]
  | cons a as ih =>
      rw [List.mapM_cons, gives_bind]
      simp only [gives_bind, gives_pure, ih]
      constructor
      · rintro ⟨b, hb, bs, hbs, rfl⟩
        exact .cons hb hbs
      · rintro (_ | ⟨hb, hbs⟩)
        exact ⟨_, hb, _, hbs, rfl⟩

theorem gives_count {what : Counted} {n : Nat} {q : Pool} {w : UInt16} :
    (count what n).Gives q w ↔ n ≤ 65535 ∧ w = UInt16.ofNat n := by
  rw [count, gives_ite]
  split
  · rename_i h
    simp [h, eq_comm]
  · rename_i h
    simp [h]

instance steady_count (what : Counted) (n : Nat) : Steady (count what n) := by
  rw [count]
  infer_instance

end Interning

end ClassFile
