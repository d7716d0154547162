import ClassFile.Proofs.Pool.Numbering
/-!
# Room in the pool

Numbers are refused when the pool is full, and texts when they are too long for their length word; nothing else is refused
while names are numbered. So whoever knows how many slots a computation takes at most, and that a pool has as many left,
knows that there is an answer.

`m.Needs n` says that: with `n` slots left there is an answer, and no more than these are taken.
-/

namespace ClassFile.Interning

variable {α β : Type}

/-- With `n` slots left there is an answer, and no more than these are taken. -/
def Needs (m : Interning α) (n : Nat) : Prop :=
  ∀ p : Pool, p.size + n ≤ Pool.maxSlots → ∃ a q, m.runOn p = (.ok a, q) ∧ q.size ≤ p.size + n

theorem Needs.mono {m : Interning α} {n n' : Nat} (h : m.Needs n) (hle : n ≤ n') : m.Needs n' := by
  intro p room
  obtain ⟨a, q, hrun, hsize⟩ := h p (by omega)
  exact ⟨a, q, hrun, by omega⟩

/-- What has the same answer on every pool takes nothing. -/
theorem needs_zero {m : Interning α} {a : α} (h : ∀ p, m.Gives p a) : m.Needs 0 := by
  intro p _
  exact ⟨a, p, h p, Nat.le_refl _⟩

theorem needs_pure (a : α) : (pure a : Interning α).Needs 0 :=
  needs_zero (runOn_pure a)

theorem needs_bind {x : Interning α} {f : α → Interning β} {m n : Nat} (hx : x.Needs m)
    (hf : ∀ a, (f a).Needs n) : (x >>= f).Needs (m + n) := by
  intro p room
  obtain ⟨a, p', hrun, hsize⟩ := hx p (by omega)
  obtain ⟨b, q, hrun', hsize'⟩ := hf a p' (by omega)
  refine ⟨b, q, ?_, by omega⟩
  rw [runOn_bind_ok f hrun]
  exact hrun'

theorem needs_mapM {f : α → Interning β} {n : Nat} {as : List α} (h : ∀ a ∈ as, (f a).Needs n) :
    (as.mapM f).Needs (as.length * n) := by
  induction as with
  | nil =>
      rw [List.length_nil, Nat.zero_mul, List.mapM_nil]
      exact needs_pure []
  | cons a as ih =>
      have hhead := h a List.mem_cons_self
      have htail := ih fun b hb => h b (List.mem_cons_of_mem a hb)
      rw [List.length_cons, Nat.succ_mul, Nat.add_comm, List.mapM_cons]
      exact needs_bind hhead fun b => needs_bind htail fun bs => needs_pure (b :: bs)

/-- An entry that is there already takes nothing, and a new one its own slots. -/
theorem needs_entry (e : Entry) : (entry e).Needs e.width := by
  intro p room
  rw [runOn_entry]
  split
  · rename_i i _
    exact ⟨i, p, rfl, Nat.le_add_right _ _⟩
  · rw [if_pos room]
    exact ⟨_, _, rfl, Nat.le_of_eq (Pool.size_push p e)⟩

theorem needs_text {s : String} (h : (Entry.utf8 s).Fits) : (text s).Needs 1 := by
  rw [text, if_pos (show _ ≤ _ from h)]
  exact needs_entry (.utf8 s)

theorem needs_className {name : String} (h : (Entry.utf8 name).Fits) : (className name).Needs 2 :=
  needs_bind (needs_text h) fun i => needs_entry (.classRef i)

theorem needs_nameAndType {name descriptor : String} (hname : (Entry.utf8 name).Fits)
    (hdescriptor : (Entry.utf8 descriptor).Fits) : (nameAndType name descriptor).Needs 3 :=
  needs_bind (needs_text hname) fun n => needs_bind (needs_text hdescriptor) fun d =>
    needs_entry (.nameAndType n d)

theorem needs_methodRef {m : MemberRef} (ofInterface : Bool) (howner : (Entry.utf8 m.owner).Fits)
    (hname : (Entry.utf8 m.name).Fits) (hdescriptor : (Entry.utf8 m.descriptor).Fits) :
    (methodRef m ofInterface).Needs 6 := by
  refine needs_bind (n := 4) (needs_className howner) fun owner => ?_
  refine needs_bind (n := 1) (needs_nameAndType hname hdescriptor) fun nt => ?_
  cases ofInterface with
  | true => exact needs_entry (.interfaceMethodRef owner nt)
  | false => exact needs_entry (.methodRef owner nt)

theorem needs_count (what : Counted) {n : Nat} (h : n ≤ 65535) : (count what n).Needs 0 := by
  rw [count, if_pos h]
  exact needs_pure _

end ClassFile.Interning
