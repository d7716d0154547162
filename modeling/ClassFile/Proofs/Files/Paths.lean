import ClassFile.Files.Tree
import Mathlib.Data.List.Nodup
/-!
# Paths and where they lead

The text of a path is cut at its slashes. Names that files can have are put together and come apart again (§1), and a walk
along such names goes where they say, as long as it passes directories only (§2). So the text of a path finds the file
that stands there: the directories on the way need not be listed, since the file lies under them.
-/

namespace ClassFile.Files

/-! ## §1  Texts -/

theorem withoutEnding?_eq_some {ending text name : String} :
    withoutEnding? ending text = some name ↔ text = name ++ ending := by
  rw [withoutEnding?, ← String.toList_inj, String.toList_append]
  constructor
  · intro h
    split at h
    · rename_i hsuffix
      obtain ⟨front, hfront⟩ := List.isSuffixOf_iff_suffix.mp hsuffix
      have hlength : text.length - ending.length = front.length := by
        rw [← String.length_toList, ← String.length_toList, ← hfront, List.length_append, Nat.add_sub_cancel]
      obtain rfl := Option.some.inj h
      rw [String.toList_ofList, hlength, ← hfront, List.take_left]
    · cases h
  · intro h
    have hlength : text.length - ending.length = name.toList.length := by
      rw [← String.length_toList, ← String.length_toList, h, List.length_append, Nat.add_sub_cancel]
    rw [h, if_pos (List.isSuffixOf_iff_suffix.mpr (List.suffix_append _ _)), hlength, List.take_left,
      String.ofList_toList]

/-- A name that a file or a directory can have where it stands. -/
structure IsName (name : String) : Prop where
  ne_empty : name ≠ ""
  ne_here : name ≠ "."
  ne_parent : name ≠ parentName
  slash : '/' ∉ name.toList

instance (name : String) : Decidable (IsName name) :=
  decidable_of_iff (name ≠ "" ∧ name ≠ "." ∧ name ≠ parentName ∧ '/' ∉ name.toList)
    ⟨fun h => ⟨h.1, h.2.1, h.2.2.1, h.2.2.2⟩, fun h => ⟨h.ne_empty, h.ne_here, h.ne_parent, h.slash⟩⟩

theorem startsWith_slash_iff {text : String} : text.startsWith "/" = true ↔ ∃ rest, text.toList = '/' :: rest := by
  rw [String.startsWith_string_iff]
  constructor
  · rintro ⟨rest, hrest⟩
    exact ⟨rest, hrest.symm⟩
  · rintro ⟨rest, hrest⟩
    exact ⟨rest, hrest.symm⟩

theorem startsWith_joined {p : Path} (hp : p ≠ []) (names : ∀ x ∈ p, IsName x) :
    (joined p).startsWith "/" = false := by
  rw [← Bool.not_eq_true, startsWith_slash_iff]
  rintro ⟨rest, hrest⟩
  cases p with
  | nil => exact hp rfl
  | cons first more =>
      have hname := names first List.mem_cons_self
      -- The text begins with the first character of the first name.
      cases hfirst : first.toList with
      | nil => exact hname.ne_empty (String.toList_eq_nil_iff.mp hfirst)
      | cons c cs =>
          have hc : c = '/' := by
            cases more with
            | nil =>
                rw [joined, String.intercalate_singleton, hfirst] at hrest
                exact (List.cons.inj hrest).1
            | cons second more =>
                rw [joined, String.intercalate_cons_cons, String.toList_append, String.toList_append, hfirst] at hrest
                exact (List.cons.inj hrest).1
          exact hname.slash (hfirst ▸ hc ▸ List.mem_cons_self)

/-- The text ends in the last character of the last name. -/
theorem exists_getLast?_joined {p : Path} (hp : p ≠ []) (names : ∀ x ∈ p, IsName x) :
    ∃ c, (joined p).toList.getLast? = some c ∧ c ≠ '/' := by
  induction p with
  | nil => exact absurd rfl hp
  | cons first more ih =>
      have hname := names first List.mem_cons_self
      cases more with
      | nil =>
          have hfirst : first.toList ≠ [] := fun h => hname.ne_empty (String.toList_eq_nil_iff.mp h)
          rw [joined, String.intercalate_singleton, List.getLast?_eq_some_getLast hfirst]
          refine ⟨_, rfl, fun h => hname.slash (h ▸ List.getLast_mem hfirst)⟩
      | cons second more =>
          obtain ⟨c, hc, hslash⟩ := ih (List.cons_ne_nil _ _) fun x hx => names x (List.mem_cons_of_mem _ hx)
          refine ⟨c, ?_, hslash⟩
          rw [joined] at hc
          rw [joined, String.intercalate_cons_cons, String.toList_append, List.getLast?_append, hc]
          rfl

/-- A path of names is followed from the directory it is asked of. -/
theorem startOf_joined {p : Path} (hp : p ≠ []) (names : ∀ x ∈ p, IsName x) (root : Path) :
    startOf root (joined p) = root := by
  rw [startOf, startsWith_joined hp names]
  rfl

/-- Names that are put together come apart again. -/
theorem components_joined {p : Path} (hp : p ≠ []) (names : ∀ x ∈ p, IsName x) : components (joined p) = p := by
  have hsplit : (joined p).toList.splitOn '/' = p.map String.toList := by
    rw [joined, String.toList_intercalate]
    refine List.splitOn_intercalate '/' (fun l hl => ?_) (by simpa using hp)
    obtain ⟨x, hx, rfl⟩ := List.mem_map.mp hl
    exact (names x hx).slash
  have hall : p.filter (fun part => part != "" && part != ".") = p := by
    refine List.filter_eq_self.mpr fun x hx => ?_
    rw [Bool.and_eq_true, bne_iff_ne, bne_iff_ne]
    exact ⟨(names x hx).ne_empty, (names x hx).ne_here⟩
  have hmap : (p.map String.toList).map String.ofList = p := by
    simp [List.map_map, Function.comp_def]
  rw [components, startsWith_joined hp names, hsplit, hmap, hall]
  rfl

theorem sublist_intercalate {α : Type} {sep part : List α} {parts : List (List α)} (h : part ∈ parts) :
    part.Sublist (sep.intercalate parts) := by
  induction parts with
  | nil => cases h
  | cons first more ih =>
      cases more with
      | nil =>
          rw [List.intercalate_singleton]
          exact List.mem_singleton.mp h ▸ .refl _
      | cons second more =>
          rw [List.intercalate_cons_cons]
          rcases List.mem_cons.mp h with rfl | h
          · exact (List.sublist_append_left _ sep).trans (List.sublist_append_left _ _)
          · exact (ih h).trans (List.sublist_append_right _ _)

/-- A component is made of characters of the text, in their order. -/
theorem sublist_of_mem_components {text component : String} (h : component ∈ components text) :
    component.toList.Sublist text.toList := by
  have hparts : ∀ name ∈ (text.toList.splitOn '/').map String.ofList, name.toList.Sublist text.toList := by
    intro name hname
    obtain ⟨part, hpart, rfl⟩ := List.mem_map.mp hname
    have hjoined : ['/'].intercalate (text.toList.splitOn '/') = text.toList := List.intercalate_splitOn '/'
    rw [String.toList_ofList, ← hjoined]
    exact sublist_intercalate hpart
  rw [components] at h
  split at h
  · rename_i hroot
    rcases List.mem_cons.mp h with rfl | h
    · -- The name of the root is the slash with which the text begins.
      obtain ⟨rest, hrest⟩ := startsWith_slash_iff.mp hroot
      rw [hrest]
      exact (List.nil_sublist rest).cons_cons '/'
    · exact hparts component (List.mem_filter.mp h).1
  · exact hparts component (List.mem_filter.mp h).1

theorem exists_mem_of_mem_intercalate {α : Type} {sep : List α} {parts : List (List α)} {a : α}
    (h : a ∈ sep.intercalate parts) (hsep : a ∉ sep) : ∃ part ∈ parts, a ∈ part := by
  induction parts with
  | nil => exact absurd h List.not_mem_nil
  | cons first more ih =>
      cases more with
      | nil =>
          rw [List.intercalate_singleton] at h
          exact ⟨first, List.mem_cons_self, h⟩
      | cons second more =>
          rw [List.intercalate_cons_cons, List.mem_append, List.mem_append] at h
          rcases h with (h | h) | h
          · exact ⟨first, List.mem_cons_self, h⟩
          · exact absurd h hsep
          · obtain ⟨part, hpart, ha⟩ := ih h
            exact ⟨part, List.mem_cons_of_mem _ hpart, ha⟩

/-- A text that is not made of slashes and points alone has a component. -/
theorem components_ne_nil {text : String} {c : Char} (hc : c ∈ text.toList) (slash : c ≠ '/') (dot : c ≠ '.') :
    components text ≠ [] := by
  intro hnil
  have hjoined : ['/'].intercalate (text.toList.splitOn '/') = text.toList := List.intercalate_splitOn '/'
  rw [← hjoined] at hc
  obtain ⟨part, hpart, hc⟩ := exists_mem_of_mem_intercalate hc (by simpa using slash)
  have hkept : (String.ofList part != "" && String.ofList part != ".") = true := by
    rw [Bool.and_eq_true, bne_iff_ne, bne_iff_ne, ← String.toList_inj.ne, ← String.toList_inj.ne, String.toList_ofList]
    constructor
    · exact List.ne_nil_of_mem hc
    · rintro rfl
      exact dot (by simpa using hc)
  have hmem : String.ofList part ∈ ((text.toList.splitOn '/').map String.ofList).filter fun part =>
      part != "" && part != "." := List.mem_filter.mpr ⟨List.mem_map_of_mem hpart, hkept⟩
  unfold components at hnil
  split at hnil
  · cases hnil
  · exact List.ne_nil_of_mem hmem hnil

/-- A text with one point at most does not lead up. -/
theorem parentName_notMem_components {text : String} (h : text.toList.count '.' ≤ 1) :
    parentName ∉ components text := by
  intro hmem
  have hcount := (sublist_of_mem_components hmem).count_le '.'
  have htwo : parentName.toList.count '.' = 2 := by decide
  omega

/-! ## §2  Trees -/

namespace Tree

variable {t : Tree} {root p q : Path} {cs : List String} {bytes : Bytes}

/-- What a path leads to is one file or one directory. -/
def Single (t : Tree) : Prop :=
  ∀ m ∈ t.nodes, ∀ n ∈ t.nodes, m.1 = n.1 → m = n

theorem single_of_nodup (h : (t.nodes.map Prod.fst).Nodup) : t.Single :=
  fun _ hm _ hn heq => List.inj_on_of_nodup_map h hm hn heq

theorem under?_eq_some : under? root p = some q ↔ q ≠ [] ∧ p = root ++ q := by
  rw [under?]
  constructor
  · intro h
    split at h
    · rename_i hunder
      obtain ⟨hroot, hlength⟩ := Bool.and_eq_true_iff.mp hunder
      obtain ⟨rest, rfl⟩ := List.isPrefixOf_iff_prefix.mp hroot
      rw [List.drop_left] at h
      obtain rfl := Option.some.inj h
      refine ⟨?_, rfl⟩
      rintro rfl
      simp at hlength
    · cases h
  · rintro ⟨hq, rfl⟩
    have hlength := List.length_pos_iff.mpr hq
    rw [if_pos, List.drop_left]
    rw [Bool.and_eq_true_iff, decide_eq_true_eq, List.length_append]
    exact ⟨List.isPrefixOf_iff_prefix.mpr (List.prefix_append _ _), by omega⟩

theorem mem_filesUnder : q ∈ t.filesUnder root ↔ q ≠ [] ∧ ∃ bytes, (root ++ q, Node.file bytes) ∈ t.nodes := by
  rw [filesUnder, List.mem_filterMap]
  constructor
  · rintro ⟨⟨p, node⟩, hmem, hnode⟩
    cases node with
    | directory => cases hnode
    | file bytes =>
        obtain ⟨hq, rfl⟩ := under?_eq_some.mp hnode
        exact ⟨hq, bytes, hmem⟩
  · rintro ⟨hq, bytes, hmem⟩
    exact ⟨_, hmem, under?_eq_some.mpr ⟨hq, rfl⟩⟩

theorem bytes?_eq_some (single : t.Single) : t.bytes? p = some bytes ↔ (p, Node.file bytes) ∈ t.nodes := by
  rw [bytes?]
  constructor
  · intro h
    split at h
    · rename_i found _ hfound
      obtain rfl := Option.some.inj h
      have hp : found = p := by simpa using List.find?_some hfound
      exact hp ▸ List.mem_of_find?_eq_some hfound
    · cases h
  · intro h
    cases hfound : t.nodes.find? fun n => n.1 == p with
    | none => exact absurd (List.find?_eq_none.mp hfound _ h) (by simp)
    | some n =>
        have hn : n = (p, Node.file bytes) :=
          single n (List.mem_of_find?_eq_some hfound) _ h (by simpa using List.find?_some hfound)
        rw [hn]

/-- What a file lies under is a directory. -/
theorem isDirectory_of_file (h : (root ++ q, Node.file bytes) ∈ t.nodes) (hq : q ≠ []) : t.isDirectory root = true := by
  rw [isDirectory, Bool.or_eq_true_iff, List.any_eq_true]
  refine .inr ⟨_, h, ?_⟩
  show (under? root (root ++ q)).isSome = true
  rw [under?_eq_some.mpr ⟨hq, rfl⟩]
  rfl

theorem foldl_enter_none (t : Tree) (cs : List String) : cs.foldl t.enter none = none := by
  induction cs with
  | nil => rfl
  | cons c cs ih => exact ih

theorem walk_cons (t : Tree) (start : Path) (c : String) (cs : List String) :
    t.walk start (c :: cs) = if t.isDirectory start then t.walk (next start c) cs else none := by
  rw [walk, List.foldl_cons, enter]
  split
  · rfl
  · exact t.foldl_enter_none cs

/-- A walk that does not go up goes down, through directories. -/
theorem walk_eq_some (h : parentName ∉ cs) : t.walk root cs = some q ↔
    q = root ++ cs ∧ ∀ i < cs.length, t.isDirectory (root ++ cs.take i) = true := by
  induction cs generalizing root with
  | nil =>
      rw [List.append_nil]
      exact ⟨fun hwalk => ⟨(Option.some.inj hwalk).symm, nofun⟩, fun hq => congrArg some hq.1.symm⟩
  | cons c cs ih =>
      rw [List.mem_cons, not_or] at h
      have hnext : next root c = root ++ [c] := if_neg (by simpa using Ne.symm h.1)
      rw [walk_cons, hnext]
      constructor
      · intro hwalk
        split at hwalk
        · rename_i hroot
          obtain ⟨rfl, hdirectories⟩ := (ih h.2).mp hwalk
          refine ⟨by simp, fun i hi => ?_⟩
          cases i with
          | zero => simpa using hroot
          | succ i =>
              have hi' := hdirectories i (by simpa using hi)
              rwa [List.append_assoc] at hi'
        · cases hwalk
      · rintro ⟨rfl, hdirectories⟩
        have hroot := hdirectories 0 (Nat.zero_lt_succ _)
        rw [List.take_zero, List.append_nil] at hroot
        rw [if_pos hroot]
        refine (ih h.2).mpr ⟨List.append_cons root c cs, fun i hi => ?_⟩
        rw [List.append_assoc]
        exact hdirectories (i + 1) (Nat.succ_lt_succ hi)

/-- The way to a file is free. -/
theorem walk_bytes?_eq_some (single : t.Single) (h : parentName ∉ cs) :
    (t.walk root cs).bind t.bytes? = some bytes ↔ (root ++ cs, Node.file bytes) ∈ t.nodes := by
  rw [Option.bind_eq_some_iff]
  constructor
  · rintro ⟨q, hwalk, hbytes⟩
    obtain ⟨rfl, -⟩ := (walk_eq_some h).mp hwalk
    exact (bytes?_eq_some single).mp hbytes
  · intro hfile
    refine ⟨_, (walk_eq_some h).mpr ⟨rfl, fun i hi => ?_⟩, (bytes?_eq_some single).mpr hfile⟩
    rw [← List.take_append_drop i cs, ← List.append_assoc] at hfile
    refine isDirectory_of_file hfile ?_
    rw [ne_eq, List.drop_eq_nil_iff]
    omega

end Tree

end ClassFile.Files
