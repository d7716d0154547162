import ClassFile.Code.Labels
import ClassFile.Proofs.Code.Layout
import ClassFile.Proofs.Sorting
/-!
# Offsets and the labels that replace them

The offsets that are referred to are sorted, repetitions go, and each gets the next number (§1). So two offsets
share no label as long as there are no more of them than there are numbers; a body is far too short for that.

The lines that are made hold the instructions in order, and the label of an offset directly before the instruction at
it, or at the end (§2). That is all that is needed: the position of the label among the lines is the position of its
offset among those at which instructions start. And if every offset is one of these, nothing goes wrong on the
way (§3).
-/

namespace ClassFile

namespace Labels

/-! ## §1  Numbers for offsets -/

variable {located : List Located} {handlers : List OffsetHandler}

theorem targetOffsets_spec (located : List Located) (handlers : List OffsetHandler) :
    (targetOffsets located handlers).Pairwise (· < ·) ∧ ∀ t, t ∈ targetOffsets located handlers ↔
      (∃ x ∈ located, t ∈ x.2.targets) ∨ ∃ h ∈ handlers, t ∈ h.offsets := by
  obtain ⟨hlt, hmem⟩ := Sorting.eraseReps_mergeSort ((located.flatMap fun l => l.2.targets) ++
    handlers.flatMap OffsetHandler.offsets)
  refine ⟨hlt, fun t => ?_⟩
  rw [targetOffsets, hmem, List.mem_append, List.mem_flatMap, List.mem_flatMap]

theorem map_fst_number (offsets : List Nat) : (number offsets).map (·.1) = offsets := by
  rw [number, List.map_map]
  exact List.zipIdx_map_fst 0 offsets

theorem le_of_sorted {offsets : List Nat} (h : offsets.Pairwise (· < ·)) {n t : Nat}
    (ht : offsets[n]? = some t) : n ≤ t := by
  induction n generalizing t with
  | zero => exact Nat.zero_le t
  | succ n ih =>
      obtain ⟨hn, rfl⟩ := List.getElem?_eq_some_iff.mp ht
      have hstep := ih (List.getElem?_eq_getElem (Nat.lt_of_succ_lt hn))
      have hlt := List.pairwise_iff_getElem.mp h n (n + 1) (Nat.lt_of_succ_lt hn) hn (Nat.lt_succ_self n)
      omega

theorem nodup_labels {offsets : List Nat} (h : offsets.Pairwise (· < ·))
    (hbound : ∀ t ∈ offsets, t < UInt32.size) : ((number offsets).map (·.2)).Nodup := by
  refine List.pairwise_iff_getElem.mpr fun m n hm hn hmn heq => ?_
  simp only [number, List.length_map, List.length_zipIdx] at hm hn
  simp only [number, List.getElem_map, List.getElem_zipIdx, Nat.zero_add, Label.mk.injEq] at heq
  -- A position is at most the offset that stands there, so it fits the number of a label.
  have hmle := le_of_sorted h (List.getElem?_eq_getElem hm)
  have hnle := le_of_sorted h (List.getElem?_eq_getElem hn)
  have hmbound := hbound _ (List.getElem_mem hm)
  have hnbound := hbound _ (List.getElem_mem hn)
  have hnat := congrArg UInt32.toNat heq
  rw [UInt32.toNat_ofNat_of_lt' (Nat.lt_of_le_of_lt hmle hmbound),
    UInt32.toNat_ofNat_of_lt' (Nat.lt_of_le_of_lt hnle hnbound)] at hnat
  omega

/-- The map from offsets to labels holds what the list of them says. -/
theorem label_of_mem {offsets : List Nat} (h : offsets.Pairwise (· < ·)) {t : Nat} {l : Label}
    (hl : (t, l) ∈ number offsets) :
    Numbering.label (Std.HashMap.ofList (number offsets)) t = l := by
  refine Std.HashMap.getD_ofList_of_mem (beq_self_eq_true t) ?_ hl
  have hdistinct : ((number offsets).map (·.1)).Pairwise (· < ·) := by
    rwa [map_fst_number]
  exact (List.pairwise_map.mp hdistinct).imp fun hlt => beq_false_of_ne (Nat.ne_of_lt hlt)

/-! ## §2  Labels among instructions -/

/-- Lines in which each label of the list stands directly before the instruction at its offset, or at the end. -/
inductive Woven (f : Nat → Label) (length : Nat) :
    List (Nat × Label) → List Located → List Item → Prop where
  | done : Woven f length [] [] []
  | label {o : Nat} {l : Label} {labels : List (Nat × Label)} {located : List Located}
      {items : List Item} (ho : (stopsOf length located)[0]? = some o)
      (tail : Woven f length labels located items) :
      Woven f length ((o, l) :: labels) located (.label l :: items)
  | instruction {o : Nat} {i : Instruction Nat} {labels : List (Nat × Label)}
      {located : List Located} {items : List Item} (tail : Woven f length labels located items) :
      Woven f length labels ((o, i) :: located) (.instruction (i.map f) :: items)

theorem woven_of_placeAt {f : Nat → Label} {length o : Nat} {i : Instruction Nat}
    {labels labels' : List (Nat × Label)} {found found' items : List Item}
    (h : placeAt o found labels = .ok (found', labels'))
    (hwoven : Woven f length labels' ((o, i) :: located) items) :
    ∃ here, found' = here.reverse ++ found ∧
      Woven f length labels ((o, i) :: located) (here ++ items) := by
  induction labels generalizing found with
  | nil =>
      rw [placeAt, Except.ok.injEq, Prod.mk.injEq] at h
      obtain ⟨rfl, rfl⟩ := h
      exact ⟨[], rfl, hwoven⟩
  | cons x labels ih =>
      obtain ⟨t, l⟩ := x
      rw [placeAt] at h
      -- The next label belongs behind this instruction, inside of it, or here.
      split at h
      · rw [Except.ok.injEq, Prod.mk.injEq] at h
        obtain ⟨rfl, rfl⟩ := h
        exact ⟨[], rfl, hwoven⟩
      · rename_i hle
        split at h
        · exact (Malformed.fail_ne_ok.mp h).elim
        · rename_i hge
          obtain rfl : t = o := by omega
          obtain ⟨here, rfl, hhere⟩ := ih h
          exact ⟨.label l :: here, by simp, .label rfl hhere⟩

theorem woven_of_placeEnd {f : Nat → Label} {length : Nat} {labels : List (Nat × Label)}
    {found items : List Item} (h : placeEnd length found labels = .ok items) :
    ∃ more, items = more.reverse ++ found ∧ Woven f length labels [] more := by
  induction labels generalizing found with
  | nil =>
      obtain rfl := Except.ok.inj h
      exact ⟨[], rfl, .done⟩
  | cons x labels ih =>
      obtain ⟨t, l⟩ := x
      rw [placeEnd] at h
      split at h
      · rename_i heq
        obtain rfl := beq_iff_eq.mp heq
        obtain ⟨more, rfl, hmore⟩ := ih h
        exact ⟨.label l :: more, by simp, .label rfl hmore⟩
      · exact (Malformed.fail_ne_ok.mp h).elim

theorem woven_of_placeOnto {numbering : Numbering} {length : Nat} {labels : List (Nat × Label)}
    {found items : List Item} (h : placeOnto numbering length found labels located = .ok items) :
    ∃ more, items = more.reverse ++ found ∧ Woven numbering.label length labels located more := by
  induction located generalizing found labels with
  | nil => exact woven_of_placeEnd h
  | cons x located ih =>
      obtain ⟨o, i⟩ := x
      rw [placeOnto] at h
      split at h
      · cases h
      · rename_i found' labels' hat
        obtain ⟨more, rfl, hmore⟩ := ih h
        obtain ⟨here, rfl, hhere⟩ := woven_of_placeAt hat (.instruction (o := o) hmore)
        exact ⟨here ++ .instruction (i.map numbering.label) :: more, by simp, hhere⟩

theorem woven_of_place {length : Nat} {labels : List (Nat × Label)} {items : List Item}
    (h : place length located labels = .ok items) :
    Woven (Numbering.label (Std.HashMap.ofList labels)) length labels located items := by
  simp only [place, except_bind_eq_ok, except_pure_eq_ok] at h
  obtain ⟨found, hfound, rfl⟩ := h
  obtain ⟨more, rfl, hmore⟩ := woven_of_placeOnto hfound
  rwa [List.append_nil, List.reverse_reverse]

namespace Woven

variable {f : Nat → Label} {length : Nat} {labels : List (Nat × Label)} {items : List Item}

theorem instructions_eq (h : Woven f length labels located items) :
    items.filterMap Item.instruction? = located.map fun x => x.2.map f := by
  induction h with
  | done => rfl
  | label _ _ ih => exact ih
  | instruction _ ih => rw [Item.instructions_cons, ih, List.map_cons]

theorem position?_eq_none (h : Woven f length labels located items) {l : Label}
    (hl : l ∉ labels.map (·.2)) : Item.position? l items = none := by
  induction h with
  | done => rfl
  | label _ _ ih =>
      rw [List.map_cons, List.mem_cons, not_or] at hl
      rw [Item.position?, ih hl.2]
      exact if_neg (Ne.symm hl.1)
  | instruction _ ih => rw [Item.position?, ih hl]; rfl

/-- A label stands at the position of its offset. -/
theorem position?_eq_some (h : Woven f length labels located items)
    (hnodup : (labels.map (·.2)).Nodup) {t : Nat} {l : Label} (hl : (t, l) ∈ labels) :
    ∃ p, Item.position? l items = some p ∧ (stopsOf length located)[p]? = some t := by
  induction h with
  | done => cases hl
  | label ho tail ih =>
      rw [List.map_cons, List.nodup_cons] at hnodup
      rcases List.mem_cons.mp hl with heq | hl
      · cases heq
        refine ⟨0, ?_, ho⟩
        rw [Item.position?, tail.position?_eq_none hnodup.1]
        exact if_pos rfl
      · obtain ⟨p, hp, ht⟩ := ih hnodup.2 hl
        exact ⟨p, by rw [Item.position?, hp], ht⟩
  | instruction _ ih =>
      obtain ⟨p, hp, ht⟩ := ih hnodup hl
      exact ⟨p + 1, by rw [Item.position?, hp]; rfl, ht⟩

theorem mem_stops (h : Woven f length labels located items) :
    ∀ x ∈ labels, x.1 ∈ stopsOf length located := by
  induction h with
  | done => simp
  | label ho tail ih =>
      intro x hx
      rcases List.mem_cons.mp hx with rfl | hx
      · exact List.mem_of_getElem? ho
      · exact ih x hx
  | instruction tail ih => exact fun x hx => List.mem_cons_of_mem _ (ih x hx)

end Woven

/-! ## §3  Every label has a place -/

theorem exists_placeAt {o : Nat} {stops : List Nat} (hstops : ∀ t ∈ stops, o < t)
    {labels : List (Nat × Label)} (found : List Item)
    (hsorted : labels.Pairwise fun a b => a.1 < b.1) (h : ∀ x ∈ labels, x.1 = o ∨ x.1 ∈ stops) :
    ∃ found' labels', placeAt o found labels = .ok (found', labels') ∧
      labels'.Pairwise (fun a b => a.1 < b.1) ∧ ∀ x ∈ labels', x.1 ∈ stops := by
  induction labels generalizing found with
  | nil => exact ⟨found, [], rfl, .nil, by simp⟩
  | cons x labels ih =>
      obtain ⟨t, l⟩ := x
      obtain ⟨hlt, hrest⟩ := List.pairwise_cons.mp hsorted
      rw [placeAt]
      rcases h (t, l) List.mem_cons_self with rfl | ht
      · rw [if_neg (Nat.lt_irrefl t), if_neg (Nat.lt_irrefl t)]
        exact ih _ hrest fun x hx => h x (List.mem_cons_of_mem _ hx)
      · have hot := hstops t ht
        rw [if_pos hot]
        refine ⟨found, _, rfl, hsorted, fun x hx => ?_⟩
        rcases List.mem_cons.mp hx with rfl | hmem
        · exact ht
        · rcases h x hx with heq | hx
          · have hxt : t < x.1 := hlt x hmem
            omega
          · exact hx

theorem exists_placeEnd {length : Nat} {labels : List (Nat × Label)} (found : List Item)
    (h : ∀ x ∈ labels, x.1 = length) : ∃ items, placeEnd length found labels = .ok items := by
  induction labels generalizing found with
  | nil => exact ⟨found, rfl⟩
  | cons x labels ih =>
      obtain ⟨t, l⟩ := x
      rw [placeEnd, if_pos (beq_iff_eq.mpr (h (t, l) List.mem_cons_self))]
      exact ih _ fun x hx => h x (List.mem_cons_of_mem _ hx)

theorem exists_placeOnto (numbering : Numbering) {length : Nat} {labels : List (Nat × Label)}
    (found : List Item) (hstops : (stopsOf length located).Pairwise (· < ·))
    (hsorted : labels.Pairwise fun a b => a.1 < b.1)
    (h : ∀ x ∈ labels, x.1 ∈ stopsOf length located) :
    ∃ items, placeOnto numbering length found labels located = .ok items := by
  induction located generalizing found labels with
  | nil => exact exists_placeEnd found fun x hx => List.mem_singleton.mp (h x hx)
  | cons x located ih =>
      obtain ⟨o, i⟩ := x
      obtain ⟨hlt, hrest⟩ := List.pairwise_cons.mp hstops
      obtain ⟨found', labels', hat, hsorted', h'⟩ := exists_placeAt hlt found hsorted
        fun x hx => List.mem_cons.mp (h x hx)
      rw [placeOnto, hat]
      exact ih _ hrest hsorted' h'

theorem exists_place {length : Nat} {offsets : List Nat}
    (hstops : (stopsOf length located).Pairwise (· < ·)) (hsorted : offsets.Pairwise (· < ·))
    (h : ∀ t ∈ offsets, t ∈ stopsOf length located) :
    ∃ items, place length located (number offsets) = .ok items := by
  have hlabels : (number offsets).Pairwise fun a b => a.1 < b.1 := by
    have hmap := hsorted
    rw [← map_fst_number offsets] at hmap
    exact List.pairwise_map.mp hmap
  obtain ⟨found, hfound⟩ := exists_placeOnto (Std.HashMap.ofList (number offsets)) [] hstops hlabels
    fun x hx => h x.1 (by
      rw [← map_fst_number offsets]
      exact List.mem_map_of_mem hx)
  exact ⟨found.reverse, by rw [place, hfound]; rfl⟩

/-- The lines of a body hold its instructions with labels for offsets, and each label stands where its offset
does. -/
theorem place_spec {length : Nat} {items : List Item} (hlength : length < UInt32.size)
    (hstops : (stopsOf length located).Pairwise (· < ·))
    (h : place length located (number (targetOffsets located handlers)) = .ok items) :
    let label := Numbering.label (Std.HashMap.ofList (number (targetOffsets located handlers)))
    items.filterMap Item.instruction? = located.map (fun x => x.2.map label) ∧
      ∀ t ∈ targetOffsets located handlers, ∃ p, Item.position? (label t) items = some p ∧
        (stopsOf length located)[p]? = some t := by
  have hwoven := woven_of_place h
  obtain ⟨hsorted, -⟩ := targetOffsets_spec located handlers
  have hmem : ∀ t ∈ targetOffsets located handlers, t ∈ stopsOf length located := by
    intro t ht
    rw [← map_fst_number (targetOffsets located handlers)] at ht
    obtain ⟨x, hx, rfl⟩ := List.mem_map.mp ht
    exact hwoven.mem_stops x hx
  have hnodup := nodup_labels hsorted fun t ht =>
    Nat.lt_of_le_of_lt (le_of_mem_stops hstops (hmem t ht)) hlength
  refine ⟨hwoven.instructions_eq, fun t ht => ?_⟩
  rw [← map_fst_number (targetOffsets located handlers)] at ht
  obtain ⟨⟨o, l⟩, hx, rfl⟩ := List.mem_map.mp ht
  rw [label_of_mem hsorted hx]
  exact hwoven.position?_eq_some hnodup hx

end Labels

end ClassFile
