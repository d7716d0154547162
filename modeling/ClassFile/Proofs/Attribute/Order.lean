import ClassFile.Attribute.Order
import Mathlib.Data.List.Basic
/-!
# What restoring the order of attributes does

Restoring an order moves attributes of different names past each other and leaves those of one name as they stand. And it
is a fixed point: however a table is taken apart and put together, as long as the attributes of each name keep their
order among themselves, the names that stood in the table bring it back.

Both come from one description of what is sorted. §1 says which position each attribute takes, name by name:
the n-th of a name the n-th recorded one. So the attributes of one name are sorted before the sorting starts, which
is stable, and the positions that a whole table takes are all different.
-/

namespace ClassFile.Attribute

/-! ## §1  Positions, name by name -/

/-- The attributes, or whatever else carries a name, with this name. -/
def named (n : String) (attributes : List Attribute) : List Attribute :=
  attributes.filter fun a => a.name == n

theorem named_cons_pos {n : String} {a : Attribute} (h : a.name = n) (more : List Attribute) :
    named n (a :: more) = a :: named n more :=
  List.filter_cons_of_pos (beq_iff_eq.mpr h)

theorem named_cons_neg {n : String} {a : Attribute} (h : a.name ≠ n) (more : List Attribute) :
    named n (a :: more) = named n more :=
  List.filter_cons_of_neg fun heq => h (beq_iff_eq.mp heq)

theorem named_append (n : String) (as bs : List Attribute) :
    named n (as ++ bs) = named n as ++ named n bs :=
  List.filter_append as bs

theorem named_eq_nil {n : String} {attributes : List Attribute} (h : ∀ a ∈ attributes, a.name ≠ n) :
    named n attributes = [] :=
  List.filter_eq_nil_iff.mpr fun a ha heq => h a ha (beq_iff_eq.mp heq)

/-- If all names share something, there is no attribute of a name that does not. -/
theorem named_eq_nil_of {P : String → Prop} {n : String} {attributes : List Attribute}
    (h : ∀ a ∈ attributes, P a.name) (hn : ¬ P n) : named n attributes = [] :=
  named_eq_nil fun a ha heq => hn (heq ▸ h a ha)

theorem name_of_mem_named {n : String} {attributes : List Attribute} {a : Attribute}
    (h : a ∈ named n attributes) : a.name = n :=
  beq_iff_eq.mp (List.mem_filter.mp h).2

theorem named_eq_self {n : String} {attributes : List Attribute}
    (h : ∀ a ∈ attributes, a.name = n) : named n attributes = attributes :=
  List.filter_eq_self.mpr fun a ha => beq_iff_eq.mpr (h a ha)

theorem named_named (n : String) (attributes : List Attribute) :
    named n (named n attributes) = named n attributes :=
  named_eq_self fun _ ha => name_of_mem_named ha

/-- The positions at which a name is recorded, counted from `start`. -/
def positionsFrom (n : String) : (start : Nat) → List String → List Nat
  | _, [] => []
  | start, m :: order =>
      if m == n then start :: positionsFrom n (start + 1) order
      else positionsFrom n (start + 1) order

/-- Attributes with one position each, as long as there are any. -/
def pair : List Nat → List Attribute → List (Option Nat × Attribute)
  | _, [] => []
  | ps, a :: more => (ps.head?, a) :: pair ps.tail more

theorem getD_recordedFrom (n : String) (order : List String) (start : Nat) :
    ((order.zipIdx start).foldr
      (fun recorded (m : Std.HashMap String (List Nat)) =>
        m.insert recorded.1 (recorded.2 :: m.getD recorded.1 [])) ∅).getD n [] =
      positionsFrom n start order := by
  induction order generalizing start with
  | nil => simp [positionsFrom]
  | cons m order ih =>
      rw [List.zipIdx_cons, List.foldr_cons, Std.HashMap.getD_insert, ih]
      simp only [positionsFrom]
      split
      · rename_i h
        rw [beq_iff_eq] at h
        subst h
        rw [ih]
      · rfl

theorem getD_recordedPositions (n : String) (order : List String) :
    (recordedPositions order).getD n [] = positionsFrom n 0 order :=
  getD_recordedFrom n order 0

theorem map_positionedOnto (found : List (Option Nat × Attribute))
    (free : Std.HashMap String (List Nat)) (attributes : List Attribute) :
    (positionedOnto found free attributes).map (·.2) =
      (found.map (·.2)).reverse ++ attributes := by
  induction attributes generalizing found free with
  | nil => simp [positionedOnto]
  | cons a more ih =>
      rw [positionedOnto]
      split
      · rw [ih]
        simp
      · rw [ih]
        simp

/-- The attributes of one name take the positions of that name in turn. -/
theorem filter_positionedOnto (n : String) (found : List (Option Nat × Attribute))
    (free : Std.HashMap String (List Nat)) (attributes : List Attribute) :
    (positionedOnto found free attributes).filter (fun x => x.2.name == n) =
      (found.filter (fun x => x.2.name == n)).reverse ++
        pair (free.getD n []) (named n attributes) := by
  induction attributes generalizing found free with
  | nil => simp [positionedOnto, named, pair]
  | cons a more ih =>
      rw [positionedOnto]
      by_cases hn : a.name = n
      · subst hn
        rw [named_cons_pos rfl, pair]
        split
        · rename_i hfree
          rw [ih, hfree]
          simp
        · rename_i p later hfree
          rw [ih, hfree, Std.HashMap.getD_insert]
          simp
      · rw [named_cons_neg hn]
        split
        · rw [ih]
          simp [hn]
        · rw [ih, Std.HashMap.getD_insert]
          simp [hn]

theorem filter_positioned (n : String) (order : List String) (attributes : List Attribute) :
    (positioned order attributes).filter (fun x => x.2.name == n) =
      pair (positionsFrom n 0 order) (named n attributes) := by
  rw [positioned, filter_positionedOnto, getD_recordedPositions]
  rfl

theorem map_positioned (order : List String) (attributes : List Attribute) :
    (positioned order attributes).map (·.2) = attributes :=
  map_positionedOnto [] _ attributes

/-! ## §2  Attributes of one name keep their order -/

/-- The comparison that the attributes are sorted by. -/
def placedBefore (a b : Option Nat × Attribute) : Bool :=
  comesBefore a.1 b.1

theorem placedBefore_trans (a b c : Option Nat × Attribute) (hab : placedBefore a b)
    (hbc : placedBefore b c) : placedBefore a c := by
  obtain ⟨_ | i, x⟩ := a <;> obtain ⟨_ | j, y⟩ := b <;> obtain ⟨_ | k, z⟩ := c <;>
    simp_all [placedBefore, comesBefore]
  omega

theorem placedBefore_total (a b : Option Nat × Attribute) : placedBefore a b || placedBefore b a := by
  obtain ⟨_ | i, x⟩ := a <;> obtain ⟨_ | j, y⟩ := b <;> simp [placedBefore, comesBefore]
  omega

theorem restoreOrder_eq {order : List String} (h : order ≠ []) (attributes : List Attribute) :
    restoreOrder order attributes =
      ((positioned order attributes).mergeSort placedBefore).map (·.2) := by
  rw [restoreOrder, if_neg (by simpa using h)]
  rfl

theorem perm_restoreOrder (order : List String) (attributes : List Attribute) :
    (restoreOrder order attributes).Perm attributes := by
  rw [restoreOrder]
  split
  · exact .refl _
  · have hperm := (List.mergeSort_perm (positioned order attributes)
      fun a b => comesBefore a.1 b.1).map (·.2)
    rwa [map_positioned] at hperm

theorem restoreOrder_nil (order : List String) : restoreOrder order [] = [] :=
  List.perm_nil.mp (perm_restoreOrder order [])

theorem le_of_mem_positionsFrom {n : String} {start p : Nat} {order : List String}
    (h : p ∈ positionsFrom n start order) : start ≤ p := by
  induction order generalizing start with
  | nil => cases h
  | cons m order ih =>
      rw [positionsFrom] at h
      split at h
      · rcases List.mem_cons.mp h with rfl | h
        · exact Nat.le_refl _
        · exact Nat.le_of_succ_le (ih h)
      · exact Nat.le_of_succ_le (ih h)

theorem positionsFrom_ascending (n : String) (start : Nat) (order : List String) :
    (positionsFrom n start order).Pairwise (· ≤ ·) := by
  induction order generalizing start with
  | nil => exact .nil
  | cons m order ih =>
      rw [positionsFrom]
      split
      · refine .cons ?_ (ih (start + 1))
        intro p hp
        exact Nat.le_of_succ_le (le_of_mem_positionsFrom hp)
      · exact ih (start + 1)

theorem mem_pair {ps : List Nat} {attributes : List Attribute} {x : Option Nat × Attribute}
    (h : x ∈ pair ps attributes) : x.1 = none ∨ ∃ p ∈ ps, x.1 = some p := by
  induction attributes generalizing ps with
  | nil => cases h
  | cons a more ih =>
      rcases List.mem_cons.mp h with rfl | h
      · cases ps with
        | nil => exact .inl rfl
        | cons p later => exact .inr ⟨p, List.mem_cons_self, rfl⟩
      · rcases ih h with hnone | ⟨p, hp, hx⟩
        · exact .inl hnone
        · exact .inr ⟨p, List.mem_of_mem_tail hp, hx⟩

theorem pair_ascending {ps : List Nat} (h : ps.Pairwise (· ≤ ·)) (attributes : List Attribute) :
    (pair ps attributes).Pairwise fun a b => placedBefore a b := by
  induction attributes generalizing ps with
  | nil => exact .nil
  | cons a more ih =>
      refine .cons ?_ (ih h.tail)
      intro x hx
      obtain ⟨o, b⟩ := x
      cases ps with
      | nil =>
          rcases mem_pair hx with hnone | ⟨p, hp, -⟩
          · subst hnone
            rfl
          · cases hp
      | cons q later =>
          rcases mem_pair hx with hnone | ⟨p, hp, hsome⟩
          · subst hnone
            rfl
          · subst hsome
            exact decide_eq_true (List.rel_of_pairwise_cons h hp)

/-- Sorting is stable, and the attributes of one name are in the order of their positions. -/
theorem named_restoreOrder (n : String) (order : List String) (attributes : List Attribute) :
    named n (restoreOrder order attributes) = named n attributes := by
  by_cases horder : order = []
  · subst horder
    rfl
  rw [restoreOrder_eq horder]
  let ps := positioned order attributes
  let ofName := fun x : Option Nat × Attribute => x.2.name == n
  -- The attributes of one name are ascending before they are sorted; a stable sorting leaves them as they are.
  have ascending : (ps.filter ofName).Pairwise fun a b => placedBefore a b := by
    rw [show ps.filter ofName = _ from filter_positioned n order attributes]
    exact pair_ascending (positionsFrom_ascending n 0 order) _
  have sublist : (ps.filter ofName).Sublist ((ps.mergeSort placedBefore).filter ofName) := by
    have h := List.sublist_mergeSort placedBefore_trans placedBefore_total ascending
      List.filter_sublist
    have h' := h.filter ofName
    rwa [List.filter_filter, show (fun a => ofName a && ofName a) = ofName by simp] at h'
  have equal : ps.filter ofName = (ps.mergeSort placedBefore).filter ofName :=
    sublist.eq_of_length ((List.mergeSort_perm ps placedBefore).filter ofName).length_eq.symm
  calc named n ((ps.mergeSort placedBefore).map (·.2))
      = ((ps.mergeSort placedBefore).filter ofName).map (·.2) := by
        rw [named, List.filter_map]
        rfl
    _ = (ps.filter ofName).map (·.2) := by rw [equal]
    _ = named n (ps.map (·.2)) := by
        rw [named, List.filter_map]
        rfl
    _ = named n attributes := by rw [map_positioned]

/-! ## §3  Names that stood in a table bring it back -/

/-- A table with the positions at which its attributes stand. -/
def inPlaceFrom (start : Nat) (attributes : List Attribute) : List (Option Nat × Attribute) :=
  (attributes.zipIdx start).map fun x => (some x.2, x.1)

theorem filter_inPlaceFrom (n : String) (start : Nat) (attributes : List Attribute) :
    (inPlaceFrom start attributes).filter (fun x => x.2.name == n) =
      pair (positionsFrom n start (attributes.map (·.name))) (named n attributes) := by
  induction attributes generalizing start with
  | nil => rfl
  | cons a more ih =>
      have hcons : inPlaceFrom start (a :: more) = (some start, a) :: inPlaceFrom (start + 1) more :=
        rfl
      rw [hcons, List.filter_cons, ih, List.map_cons, positionsFrom]
      by_cases hn : a.name = n
      · rw [if_pos (beq_iff_eq.mpr hn), if_pos (beq_iff_eq.mpr hn), named_cons_pos hn]
        rfl
      · rw [if_neg (by simpa using hn), if_neg (by simpa using hn), named_cons_neg hn]

theorem mem_inPlaceFrom {start : Nat} {attributes : List Attribute} {x : Option Nat × Attribute}
    (h : x ∈ inPlaceFrom start attributes) :
    ∃ i, x.1 = some i ∧ start ≤ i ∧ attributes[i - start]? = some x.2 := by
  obtain ⟨⟨a, i⟩, hai, rfl⟩ := List.mem_map.mp h
  rw [List.mk_mem_zipIdx_iff_le_and_getElem?_sub] at hai
  exact ⟨i, rfl, hai⟩

theorem inPlaceFrom_ascending (start : Nat) (attributes : List Attribute) :
    (inPlaceFrom start attributes).Pairwise fun a b => placedBefore a b := by
  induction attributes generalizing start with
  | nil => exact .nil
  | cons a more ih =>
      refine .cons ?_ (ih (start + 1))
      intro x hx
      obtain ⟨i, hi, hle, -⟩ := mem_inPlaceFrom hx
      obtain ⟨o, b⟩ := x
      subst hi
      exact decide_eq_true (Nat.le_of_succ_le hle)

/-- A table is known from its names in their order and, for each name, its attributes in theirs. -/
theorem restoreOrder_names {attributes table : List Attribute}
    (h : ∀ n, named n attributes = named n table) :
    restoreOrder (table.map (·.name)) attributes = table := by
  by_cases htable : table = []
  · subst htable
    cases attributes with
    | nil => rfl
    | cons a more => simpa [named] using h a.name
  have horder : table.map (·.name) ≠ [] := by simpa using htable
  rw [restoreOrder_eq horder]
  let ps := positioned (table.map (·.name)) attributes
  have same (n : String) : ps.filter (fun x => x.2.name == n) =
      (inPlaceFrom 0 table).filter (fun x => x.2.name == n) := by
    rw [filter_inPlaceFrom, ← h n]
    exact filter_positioned n _ attributes
  -- The two lists have the same members, name by name.
  have perm : ps.Perm (inPlaceFrom 0 table) := by
    rw [List.perm_iff_count]
    intro x
    have count (l : List (Option Nat × Attribute)) :
        List.count x (l.filter fun y => y.2.name == x.2.name) = List.count x l :=
      List.count_filter (by simp)
    rw [← count ps, ← count (inPlaceFrom 0 table), same x.2.name]
  -- Positions in a table are all different, so it has only one ascending arrangement.
  have sorted : ps.mergeSort placedBefore = inPlaceFrom 0 table := by
    refine List.Perm.eq_of_pairwise ?_
      (List.pairwise_mergeSort placedBefore_trans placedBefore_total ps)
      (inPlaceFrom_ascending 0 table) ((List.mergeSort_perm ps _).trans perm)
    intro a b ha hb hab hba
    have ha' := (List.mergeSort_perm ps placedBefore).trans perm |>.mem_iff.mp ha
    obtain ⟨i, hi, -, hai⟩ := mem_inPlaceFrom ha'
    obtain ⟨j, hj, -, hbj⟩ := mem_inPlaceFrom hb
    simp only [placedBefore, comesBefore, hi, hj, decide_eq_true_eq] at hab hba
    obtain rfl : i = j := Nat.le_antisymm hab hba
    have hvalue : a.2 = b.2 := Option.some.inj (hai.symm.trans hbj)
    exact Prod.ext (hi.trans hj.symm) hvalue
  rw [show positioned (table.map (·.name)) attributes = ps from rfl, sorted]
  simp [inPlaceFrom, Function.comp_def]

end ClassFile.Attribute
