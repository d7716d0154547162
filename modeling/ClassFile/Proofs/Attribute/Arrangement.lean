import ClassFile.Proofs.Attribute.Order
import Mathlib.Data.List.Permutation
import Mathlib.Data.List.Sigma
/-!
# Where each attribute goes

Attributes are put into their recorded order by the positions that they take, and attributes may be equal. So the
arrangement is described by the places that the attributes come from: first those of the attributes with a recorded
position, in the order of these positions, then all others in ascending order.

§1 says which position is recorded for the attribute at a place, by counting attributes and names in front of it, and
that these are the positions that are sorted by. §2 sorts the attributes together with their places; no two places are
equal, so nothing is left open. §3 puts together what restoring the order does.
-/

namespace ClassFile.Attribute

/-! ## §1  Recorded positions -/

/-- The attribute at place `i` has the recorded position `p`: as many attributes of its name stand in front of it as
names equal to it are recorded in front of `p`. -/
def RecordedAt (order : List String) (attributes : List Attribute) (i p : Nat) : Prop :=
  ∃ a, attributes[i]? = some a ∧ order[p]? = some a.name ∧
    (named a.name (attributes.take i)).length = (order.take p).count a.name

variable {order : List String} {attributes : List Attribute}

theorem getElem?_positionsFrom {n : String} {start k p : Nat} :
    (positionsFrom n start order)[k]? = some p ↔
      ∃ j, p = start + j ∧ order[j]? = some n ∧ (order.take j).count n = k := by
  induction order generalizing start k with
  | nil => simp [positionsFrom]
  | cons m order ih =>
      rw [positionsFrom]
      by_cases hm : m = n
      · subst hm
        rw [if_pos (beq_self_eq_true m)]
        constructor
        · intro h
          cases k with
          | zero => exact ⟨0, (Option.some.inj h).symm, rfl, rfl⟩
          | succ k =>
              obtain ⟨j, rfl, hj, hcount⟩ := ih.mp h
              exact ⟨j + 1, by omega, hj, by rw [List.take_succ_cons, List.count_cons_self, hcount]⟩
        · rintro ⟨_ | j, rfl, hj, rfl⟩
          · rfl
          · rw [List.take_succ_cons, List.count_cons_self]
            exact ih.mpr ⟨j, by omega, hj, rfl⟩
      · rw [if_neg (by simpa using hm), ih]
        constructor
        · rintro ⟨j, rfl, hj, rfl⟩
          exact ⟨j + 1, by omega, hj, by rw [List.take_succ_cons, List.count_cons_of_ne hm]⟩
        · rintro ⟨_ | j, rfl, hj, rfl⟩
          · exact absurd (Option.some.inj hj) hm
          · exact ⟨j, by omega, hj, by rw [List.take_succ_cons, List.count_cons_of_ne hm]⟩

theorem getElem?_pair (ps : List Nat) (attributes : List Attribute) (k : Nat) :
    (pair ps attributes)[k]? = attributes[k]?.map fun a => (ps[k]?, a) := by
  induction attributes generalizing ps k with
  | nil => rfl
  | cons a more ih =>
      cases k with
      | zero => cases ps <;> rfl
      | succ k =>
          rw [pair, List.getElem?_cons_succ, ih, List.getElem?_cons_succ]
          cases ps <;> rfl

/-- Among those that pass a test, a member has as many in front of it as passed the test before. -/
theorem getElem?_filter {α : Type} {l : List α} {q : α → Bool} {i : Nat} {x : α} (h : l[i]? = some x) (hx : q x) :
    (l.filter q)[((l.take i).filter q).length]? = some x := by
  obtain ⟨hi, rfl⟩ := List.getElem?_eq_some_iff.mp h
  have hsplit : l.filter q = (l.take i).filter q ++ l[i] :: (l.drop (i + 1)).filter q := by
    rw [← List.filter_cons_of_pos hx, ← List.drop_eq_getElem_cons hi, ← List.filter_append, List.take_append_drop]
  rw [hsplit, List.getElem?_append_right (Nat.le_refl _), Nat.sub_self]
  rfl

theorem getElem?_of_positioned {i : Nat} {x : Option Nat × Attribute}
    (h : (positioned order attributes)[i]? = some x) : attributes[i]? = some x.2 := by
  rw [← map_positioned order attributes, List.getElem?_map, h]
  rfl

theorem exists_positioned (order : List String) {i : Nat} {a : Attribute} (h : attributes[i]? = some a) :
    ∃ o, (positioned order attributes)[i]? = some (o, a) := by
  rw [← map_positioned order attributes, List.getElem?_map] at h
  obtain ⟨⟨o, b⟩, hx, rfl⟩ := Option.map_eq_some_iff.mp h
  exact ⟨o, hx⟩

/-- What an attribute is sorted by is its recorded position. -/
theorem position_eq_some_iff {i p : Nat} {x : Option Nat × Attribute}
    (h : (positioned order attributes)[i]? = some x) : x.1 = some p ↔ RecordedAt order attributes i p := by
  obtain ⟨o, a⟩ := x
  let ps := positioned order attributes
  let k := (named a.name (attributes.take i)).length
  have hk : ((ps.take i).filter fun y => y.2.name == a.name).length = k := by
    calc ((ps.take i).filter fun y => y.2.name == a.name).length
        = (named a.name ((ps.take i).map (·.2))).length := by rw [named, List.filter_map, List.length_map]; rfl
      _ = k := by rw [List.map_take, map_positioned]
  -- The attribute is the one with number `k` of its name, and those of its name have the positions of the name in turn.
  have hpair := getElem?_filter (q := fun y => y.2.name == a.name) h (beq_self_eq_true a.name)
  rw [hk, filter_positioned, getElem?_pair] at hpair
  obtain ⟨b, -, hb⟩ := Option.map_eq_some_iff.mp hpair
  obtain ⟨rfl, rfl⟩ := Prod.mk.inj hb
  rw [getElem?_positionsFrom]
  constructor
  · rintro ⟨j, rfl, hj, hcount⟩
    exact ⟨b, getElem?_of_positioned h, by rwa [Nat.zero_add], by rw [Nat.zero_add, hcount]⟩
  · rintro ⟨c, hc, hp, hcount⟩
    obtain rfl : c = b := Option.some.inj (hc.symm.trans (getElem?_of_positioned h))
    exact ⟨p, (Nat.zero_add p).symm, hp, hcount.symm⟩

/-- Farther on, one more attribute of the name stands in front. -/
theorem length_named_take_lt {i j : Nat} {a : Attribute} (ha : attributes[i]? = some a) (hij : i < j) :
    (named a.name (attributes.take i)).length < (named a.name (attributes.take j)).length := by
  have hnext : (named a.name (attributes.take (i + 1))).length = (named a.name (attributes.take i)).length + 1 := by
    rw [List.take_add_one, ha, named_append, List.length_append, Option.toList_some, named_cons_pos rfl]
    rfl
  have hsub : (attributes.take (i + 1)).Sublist (attributes.take j) := (List.take_prefix_take_left hij).sublist
  calc (named a.name (attributes.take i)).length
      < (named a.name (attributes.take (i + 1))).length := by omega
    _ ≤ (named a.name (attributes.take j)).length := (hsub.filter fun b : Attribute => b.name == a.name).length_le

/-- A recorded position is that of one place only. -/
theorem RecordedAt.place_unique {i j p : Nat} (hi : RecordedAt order attributes i p)
    (hj : RecordedAt order attributes j p) : i = j := by
  obtain ⟨a, ha, hpa, hcounta⟩ := hi
  obtain ⟨b, hb, hpb, hcountb⟩ := hj
  have hname : a.name = b.name := Option.some.inj (hpa.symm.trans hpb)
  have heq : (named a.name (attributes.take i)).length = (named a.name (attributes.take j)).length := by
    rw [hcounta, hname, hcountb]
  rcases Nat.lt_trichotomy i j with hlt | rfl | hlt
  · exact absurd heq (Nat.ne_of_lt (length_named_take_lt ha hlt))
  · rfl
  · have hless := length_named_take_lt hb hlt
    rw [← hname] at hless
    exact absurd heq.symm (Nat.ne_of_lt hless)

/-! ## §2  Attributes with their places -/

/-- The attributes in their recorded order, each with its recorded position and the place that it comes from. -/
def arrangement (order : List String) (attributes : List Attribute) : List ((Option Nat × Attribute) × Nat) :=
  (positioned order attributes).zipIdx.mergeSort (List.zipIdxLE placedBefore)

theorem mem_arrangement {x : (Option Nat × Attribute) × Nat} :
    x ∈ arrangement order attributes ↔ (positioned order attributes)[x.2]? = some x.1 := by
  rw [arrangement, List.mem_mergeSort, List.mem_zipIdx_iff_getElem?]

/-- Without recorded positions, attributes are sorted as they stand. -/
theorem positioned_nil_ascending (attributes : List Attribute) :
    (positioned [] attributes).Pairwise fun a b => placedBefore a b := by
  have hnone : ∀ x ∈ positioned [] attributes, x.1 = none := by
    intro x hx
    obtain ⟨i, hi⟩ := List.mem_iff_getElem?.mp hx
    refine Option.eq_none_iff_forall_ne_some.mpr fun p hp => ?_
    obtain ⟨a, -, hnil, -⟩ := (position_eq_some_iff hi).mp hp
    cases hnil
  refine List.pairwise_of_forall_mem_list fun a ha b hb => ?_
  rw [placedBefore, hnone a ha, hnone b hb]
  rfl

theorem map_arrangement (order : List String) (attributes : List Attribute) :
    (arrangement order attributes).map (·.1.2) = restoreOrder order attributes := by
  have hsorted : (arrangement order attributes).map (·.1) = (positioned order attributes).mergeSort placedBefore :=
    List.mergeSort_zipIdx
  calc (arrangement order attributes).map (·.1.2)
      = ((arrangement order attributes).map (·.1)).map (·.2) := (List.map_map (l := arrangement order attributes)).symm
    _ = ((positioned order attributes).mergeSort placedBefore).map (·.2) := by rw [hsorted]
    _ = restoreOrder order attributes := ?_
  by_cases horder : order = []
  · subst horder
    rw [List.mergeSort_of_pairwise (positioned_nil_ascending attributes), map_positioned]
    rfl
  · rw [restoreOrder_eq horder]

/-- Of two attributes the first is placed before the second, and if neither comes before the other it stood in front. -/
theorem arrangement_ascending (order : List String) (attributes : List Attribute) :
    (arrangement order attributes).Pairwise fun x y =>
      placedBefore x.1 y.1 ∧ (placedBefore y.1 x.1 → x.2 < y.2) := by
  have hsorted := List.pairwise_mergeSort (List.zipIdxLE_trans placedBefore_trans)
    (List.zipIdxLE_total placedBefore_total) (positioned order attributes).zipIdx
  have hperm := (List.mergeSort_perm (positioned order attributes).zipIdx (List.zipIdxLE placedBefore)).map Prod.snd
  have hdistinct := List.pairwise_map.mp (hperm.nodup_iff.mpr (List.nodup_zipIdx_map_snd _))
  refine (hsorted.and hdistinct).imp fun {x y} ⟨hle, hne⟩ => ?_
  rw [List.zipIdxLE] at hle
  split at hle
  · rename_i hxy
    refine ⟨hxy, fun hyx => Nat.lt_of_le_of_ne ?_ hne⟩
    rw [if_pos hyx] at hle
    exact of_decide_eq_true hle
  · cases hle

/-- If nothing that passes a test comes behind something that does not, then all that passes comes first. -/
theorem eq_filter_append {α : Type} {q : α → Bool} {l : List α} (h : l.Pairwise fun a b => q b → q a) :
    l = l.filter q ++ l.filter fun a => !q a := by
  induction l with
  | nil => rfl
  | cons a l ih =>
      obtain ⟨ha, hl⟩ := List.pairwise_cons.mp h
      by_cases hq : q a
      · rw [List.filter_cons_of_pos hq, List.filter_cons_of_neg (by simp [hq]), List.cons_append, ← ih hl]
      · have hrest : ∀ b ∈ a :: l, ¬ q b := List.forall_mem_cons.mpr ⟨hq, fun b hb hqb => hq (ha b hb hqb)⟩
        rw [List.filter_eq_nil_iff.mpr hrest, List.nil_append]
        exact (List.filter_eq_self.mpr fun b hb => by simpa using hrest b hb).symm

/-- The places of the attributes with a recorded position, in the order of these positions. -/
def recordedPlaces (order : List String) (attributes : List Attribute) : List Nat :=
  ((arrangement order attributes).filter fun x => x.1.1.isSome).map (·.2)

/-- The places of all other attributes, in their recorded order. -/
def otherPlaces (order : List String) (attributes : List Attribute) : List Nat :=
  ((arrangement order attributes).filter fun x => !x.1.1.isSome).map (·.2)

theorem mem_recordedPlaces {i : Nat} :
    i ∈ recordedPlaces order attributes ↔ ∃ p, RecordedAt order attributes i p := by
  rw [recordedPlaces, List.mem_map]
  constructor
  · rintro ⟨⟨x, j⟩, hx, rfl⟩
    obtain ⟨hmem, hsome⟩ := List.mem_filter.mp hx
    obtain ⟨p, hp⟩ := Option.isSome_iff_exists.mp hsome
    exact ⟨p, (position_eq_some_iff (mem_arrangement.mp hmem)).mp hp⟩
  · rintro ⟨p, hp⟩
    obtain ⟨a, ha, -⟩ := id hp
    obtain ⟨o, hx⟩ := exists_positioned order ha
    obtain rfl : o = some p := (position_eq_some_iff hx).mpr hp
    exact ⟨((some p, a), i), List.mem_filter.mpr ⟨mem_arrangement.mpr hx, rfl⟩, rfl⟩

theorem mem_otherPlaces {i : Nat} :
    i ∈ otherPlaces order attributes ↔ i < attributes.length ∧ ¬ ∃ p, RecordedAt order attributes i p := by
  rw [otherPlaces, List.mem_map]
  constructor
  · rintro ⟨⟨x, j⟩, hx, rfl⟩
    obtain ⟨hmem, hnone⟩ := List.mem_filter.mp hx
    have hj := mem_arrangement.mp hmem
    refine ⟨(List.getElem?_eq_some_iff.mp (getElem?_of_positioned hj)).1, fun ⟨p, hp⟩ => ?_⟩
    have hsome : x.1 = some p := (position_eq_some_iff hj).mpr hp
    simp [hsome] at hnone
  · rintro ⟨hi, hp⟩
    obtain ⟨o, hx⟩ := exists_positioned order (List.getElem?_eq_getElem hi)
    refine ⟨((o, attributes[i]), i), List.mem_filter.mpr ⟨mem_arrangement.mpr hx, ?_⟩, rfl⟩
    cases o with
    | none => rfl
    | some p => exact absurd ⟨p, (position_eq_some_iff hx).mp rfl⟩ hp

theorem recordedPlaces_ascending : (recordedPlaces order attributes).Pairwise fun i j =>
    ∀ p q, RecordedAt order attributes i p → RecordedAt order attributes j q → p < q := by
  rw [recordedPlaces, List.pairwise_map, List.pairwise_filter]
  refine (arrangement_ascending order attributes).imp_of_mem fun {x y} hx hy ⟨hle, hlt⟩ _ _ p q hp hq => ?_
  have hxp : x.1.1 = some p := (position_eq_some_iff (mem_arrangement.mp hx)).mpr hp
  have hyq : y.1.1 = some q := (position_eq_some_iff (mem_arrangement.mp hy)).mpr hq
  simp only [placedBefore, comesBefore, hxp, hyq, decide_eq_true_eq] at hle hlt
  refine Nat.lt_of_le_of_ne hle fun heq => ?_
  subst heq
  exact absurd (hp.place_unique hq) (Nat.ne_of_lt (hlt (Nat.le_refl p)))

theorem otherPlaces_ascending : (otherPlaces order attributes).Pairwise (· < ·) := by
  rw [otherPlaces, List.pairwise_map, List.pairwise_filter]
  refine (arrangement_ascending order attributes).imp fun {x y} ⟨_, hlt⟩ hx hy => ?_
  obtain ⟨⟨_ | p, a⟩, i⟩ := x
  · obtain ⟨⟨_ | q, b⟩, j⟩ := y
    · exact hlt rfl
    · cases hy
  · cases hx

/-- Recorded positions come first. -/
theorem map_places (order : List String) (attributes : List Attribute) :
    (recordedPlaces order attributes ++ otherPlaces order attributes).map (attributes[·]?) =
      (restoreOrder order attributes).map some := by
  have hsplit : arrangement order attributes = (arrangement order attributes).filter (fun x => x.1.1.isSome) ++
      (arrangement order attributes).filter fun x => !x.1.1.isSome := by
    refine eq_filter_append ((arrangement_ascending order attributes).imp fun {x y} ⟨hle, _⟩ hy => ?_)
    obtain ⟨⟨_ | p, a⟩, i⟩ := x
    · obtain ⟨⟨_ | q, b⟩, j⟩ := y
      · cases hy
      · cases hle
    · rfl
  rw [recordedPlaces, otherPlaces, ← List.map_append, ← hsplit, ← map_arrangement, List.map_map, List.map_map]
  exact List.map_congr_left fun x hx => getElem?_of_positioned (mem_arrangement.mp hx)

/-! ## §3  What restoring the order does -/

/-- The places of a list of attributes in two parts: where an attribute has a recorded position, and where none has. -/
structure Places (order : List String) (attributes : List Attribute) (recorded others : List Nat) : Prop where
  mem_recorded (i : Nat) : i ∈ recorded ↔ ∃ p, RecordedAt order attributes i p
  /-- The first part goes by the recorded positions, so no place is in it twice. -/
  recorded_ascending : recorded.Pairwise fun i j =>
    ∀ p q, RecordedAt order attributes i p → RecordedAt order attributes j q → p < q
  mem_others (i : Nat) : i ∈ others ↔ i < attributes.length ∧ ¬ ∃ p, RecordedAt order attributes i p
  others_ascending : others.Pairwise (· < ·)

/-- The result has the attributes in their recorded order. -/
structure Rearranged (order : List String) (attributes result : List Attribute) : Prop where
  perm : result.Perm attributes
  named_eq (n : String) : named n result = named n attributes
  /-- Attributes with a recorded position come first, and the others are as they stood. -/
  places : ∃ recorded others, Places order attributes recorded others ∧
    result.map some = (recorded ++ others).map (attributes[·]?)
  /-- With its names as the order, the result comes back from every list in which the attributes of each name are the
  same and stand in the same order among themselves. -/
  again (other : List Attribute) : (∀ n, named n other = named n attributes) →
    restoreOrder (result.map (·.name)) other = result

/-- **Restoring the order is a stable rearrangement without loss**, and done once more it changes nothing. -/
theorem rearranged_restoreOrder (order : List String) (attributes : List Attribute) :
    Rearranged order attributes (restoreOrder order attributes) where
  perm := perm_restoreOrder order attributes
  named_eq n := named_restoreOrder n order attributes
  places := by
    refine ⟨recordedPlaces order attributes, otherPlaces order attributes, ?_, (map_places order attributes).symm⟩
    exact ⟨fun _ => mem_recordedPlaces, recordedPlaces_ascending, fun _ => mem_otherPlaces, otherPlaces_ascending⟩
  again other h := restoreOrder_names fun n => (h n).trans (named_restoreOrder n order attributes).symm

/-- Three attributes of one name, of which two are recorded, and one of a name that is not recorded. -/
def mixedAttributes : List Attribute :=
  [⟨"X", [1]⟩, ⟨"Z", []⟩, ⟨"X", [2]⟩, ⟨"X", [3]⟩, ⟨"Y", []⟩]

/-- The same attributes, put together in another way. -/
def regroupedAttributes : List Attribute :=
  [⟨"Z", []⟩, ⟨"Y", []⟩, ⟨"X", [1]⟩, ⟨"X", [2]⟩, ⟨"X", [3]⟩]

theorem rearranged_mixedAttributes :
    restoreOrder ["Y", "X", "X"] mixedAttributes =
      [⟨"Y", []⟩, ⟨"X", [1]⟩, ⟨"X", [2]⟩, ⟨"Z", []⟩, ⟨"X", [3]⟩] ∧
    (∀ n, named n regroupedAttributes = named n mixedAttributes) ∧
    restoreOrder ["Y", "X", "X", "Z", "X"] regroupedAttributes =
      [⟨"Y", []⟩, ⟨"X", [1]⟩, ⟨"X", [2]⟩, ⟨"Z", []⟩, ⟨"X", [3]⟩] := by
  have hresult : restoreOrder ["Y", "X", "X"] mixedAttributes =
      [⟨"Y", []⟩, ⟨"X", [1]⟩, ⟨"X", [2]⟩, ⟨"Z", []⟩, ⟨"X", [3]⟩] := by cbv
  have hnamed (n : String) : named n regroupedAttributes = named n mixedAttributes := by
    by_cases hX : "X" = n
    · subst hX
      decide
    by_cases hY : "Y" = n
    · subst hY
      decide
    by_cases hZ : "Z" = n
    · subst hZ
      decide
    simp [named, regroupedAttributes, mixedAttributes, hX, hY, hZ]
  have hagain := (rearranged_restoreOrder ["Y", "X", "X"] mixedAttributes).again regroupedAttributes hnamed
  rw [hresult] at hagain
  exact ⟨hresult, hnamed, hagain⟩

end ClassFile.Attribute
