import ClassFile.Proofs.Files.ClassPath
import Mathlib.Data.List.Sort
/-!
# A directory in the place of an archive

The same files, once in a directory and once in an archive, put in the same place among other locations. The two class
paths differ in two ways, and in no other (§4):

- The archive leaves out every class whose name ends like that of the description of a module, the directory only the one
  whose name is that. So the directory may list more classes.
- The directory takes a text for a path, so that a text with two slashes side by side leads to the file of the text with
  one, and a text that begins with a slash leads from the root to whatever stands there. The archive has no file of such a
  name, and the search goes on behind it. Only a class that is spelled with two points side by side or with a point in front,
  or asked for with such slashes, meets this.

§1 is about sets of files, each in a directory and in an archive; the locations around them contribute the same to a list
(§2) and to a search (§3).
-/

namespace ClassFile.Files

open ClassPath (classesIn find findFirst)

variable {t : Tree} {root : Path} {text : String} {files : List Archive.Packed} {bytes : Bytes}

/-! ## §1  Sets of files -/

/-- The location can be read, and its files are these. -/
structure Location.Packs (t : Tree) (l : Location) (files : List Archive.Packed) : Prop where
  inOrder : l.InOrder t
  holds : ∀ path bytes, l.Holds t path bytes ↔ ⟨path, bytes⟩ ∈ files

/-- The text is made of names that files and directories can have. -/
def IsPlain (text : String) : Prop :=
  ∃ p, p ≠ [] ∧ (∀ x ∈ p, IsName x) ∧ joined p = text

theorem IsPlain.joined_components {text : String} (h : IsPlain text) : joined (components text) = text := by
  obtain ⟨p, hp, names, rfl⟩ := h
  rw [components_joined hp names]

theorem IsPlain.components_ne_nil {text : String} (h : IsPlain text) : components text ≠ [] := by
  obtain ⟨p, hp, names, rfl⟩ := h
  rwa [components_joined hp names]

theorem IsPlain.isName {text : String} (h : IsPlain text) : ∀ x ∈ components text, IsName x := by
  obtain ⟨p, hp, names, rfl⟩ := h
  rwa [components_joined hp names]

/-- The text of a file's path does not end in a slash, as that of a directory may. -/
theorem IsPlain.getLast?_ne_slash {text : String} (h : IsPlain text) : text.toList.getLast? ≠ some '/' := by
  obtain ⟨p, hp, names, rfl⟩ := h
  obtain ⟨c, hc, hslash⟩ := exists_getLast?_joined hp names
  rw [hc]
  exact fun h => hslash (Option.some.inj h)

theorem packs_archive (h : t.file? text = some (Archive.pack files)) (fits : Archive.Fits files)
    (distinct : (files.map Archive.Packed.name).Nodup) (plain : ∀ f ∈ files, IsPlain f.name) :
    (Location.archive text).Packs t files := by
  obtain ⟨inOrder, holds⟩ := inOrder_pack h fits distinct
  refine ⟨inOrder, fun path bytes => (holds path bytes).trans ?_⟩
  exact and_iff_right_of_imp fun hf => (plain _ hf).getLast?_ne_slash

theorem packs_directory (h : ∀ p bytes, p ≠ [] →
      ((root ++ p, Node.file bytes) ∈ t.nodes ↔ ∃ f ∈ files, components f.name = p ∧ f.bytes = bytes))
    (plain : ∀ f ∈ files, IsPlain f.name) : (Location.directory root).Packs t files := by
  constructor
  · intro p hp
    obtain ⟨hne, bytes, hfile⟩ := Tree.mem_filesUnder.mp hp
    obtain ⟨f, hf, rfl, -⟩ := (h p bytes hne).mp hfile
    exact (plain f hf).isName
  · intro path bytes
    constructor
    · rintro ⟨p, hp, rfl, hfile⟩
      obtain ⟨f, hf, rfl, rfl⟩ := (h p bytes hp).mp hfile
      rwa [(plain f hf).joined_components]
    · intro hf
      have hplain := plain _ hf
      exact ⟨components path, hplain.components_ne_nil, hplain.joined_components,
        (h _ _ hplain.components_ne_nil).mpr ⟨_, hf, rfl, rfl⟩⟩

/-- A set of files twice: in a directory, and in an archive beside it. -/
def bothWays (files : List Archive.Packed) : Tree :=
  ⟨(["files.jar"], .file (Archive.pack files)) :: files.map fun f => ("files" :: components f.name, .file f.bytes)⟩

/-- Every set of files can be packed either way. -/
theorem packs_bothWays (fits : Archive.Fits files) (distinct : (files.map Archive.Packed.name).Nodup)
    (plain : ∀ f ∈ files, IsPlain f.name) : (bothWays files).Single ∧
      (Location.directory ["files"]).Packs (bothWays files) files ∧
      (Location.archive "files.jar").Packs (bothWays files) files := by
  have hmeans : meansDirectory "files.jar" = false := by decide +kernel
  have hplace : (bothWays files).locate "files.jar" = some ["files.jar"] := by
    have hcomponents : components "files.jar" = ["files.jar"] := by decide +kernel
    rw [Tree.locate, hcomponents]
    rfl
  refine ⟨Tree.single_of_nodup ?_, packs_directory (fun p bytes hp => ?_) plain, packs_archive ?_ fits distinct plain⟩
  · have hjoined : (files.map fun f => "files" :: components f.name).map (fun p => joined p.tail) =
        files.map Archive.Packed.name := by
      rw [List.map_map]
      exact List.map_congr_left fun f hf => (plain f hf).joined_components
    have hpaths : (files.map fun f => "files" :: components f.name).Nodup :=
      List.Nodup.of_map _ (hjoined ▸ distinct)
    have hdirectory : ["files.jar"] ∉ files.map fun f => "files" :: components f.name := by
      simp
    rw [bothWays, List.map_cons, List.map_map]
    exact List.nodup_cons.mpr ⟨hdirectory, hpaths⟩
  · rw [bothWays, List.mem_cons, List.mem_map]
    constructor
    · rintro (h | ⟨f, hf, h⟩)
      · simp at h
      · obtain ⟨hpath, hnode⟩ := Prod.mk.inj h
        exact ⟨f, hf, (List.cons.inj hpath).2, Node.file.inj hnode⟩
    · rintro ⟨f, hf, rfl, rfl⟩
      exact .inr ⟨f, hf, rfl⟩
  · rw [Tree.file?, hmeans, hplace]
    rfl

/-! ## §2  Listing -/

/-- The archive leaves the class out, because its name ends like that of the description of a module, and the directory
does not, because its name is not that. -/
def NamedLikeModule (files : List Archive.Packed) (name : String) : Prop :=
  (∃ bytes, ⟨name ++ classEnding, bytes⟩ ∈ files) ∧ name ≠ moduleDescription ∧ ∃ front, name = front ++ moduleDescription

theorem lists_directory_iff (directory : (Location.directory root).Packs t files)
    (archive : (Location.archive text).Packs t files) {name : String} :
    (Location.directory root).Lists t name ↔ (Location.archive text).Lists t name ∨ NamedLikeModule files name := by
  have hsame : (∃ bytes, (Location.directory root).Holds t (name ++ classEnding) bytes) ↔
      ∃ bytes, (Location.archive text).Holds t (name ++ classEnding) bytes :=
    exists_congr fun bytes => (directory.holds _ bytes).trans (archive.holds _ bytes).symm
  unfold Location.Lists NamedLikeModule
  simp only [hsame, ← archive.holds]
  by_cases hmodule : ∃ front, name = front ++ moduleDescription
  · simp [Location.Hides, hmodule]
  · have hname : name ≠ moduleDescription := by
      intro h
      exact hmodule ⟨"", h.trans (String.empty_append).symm⟩
    simp [Location.Hides, hmodule, hname]

namespace ClassPath

/-- A location between others. -/
def around (t : Tree) (before : List Location) (l : Location) (after : List Location) : ClassPath :=
  ⟨t, before ++ l :: after⟩

variable {before after : List Location}

/-- What stands around a location adds the same to a list, whatever the location is. -/
theorem classNames_around (t : Tree) (before after : List Location) :
    (∃ fault, ∀ l own, classesIn t l = .ok own → (around t before l after).classNames = .error fault) ∨
    ∃ others : List String, ∀ l own, classesIn t l = .ok own → ∃ names, (around t before l after).classNames = .ok names ∧
      names.Pairwise (· < ·) ∧ ∀ n, n ∈ names ↔ n ∈ others ∨ n ∈ own := by
  cases hbefore : before.mapM (classesIn t) with
  | error fault =>
      left
      refine ⟨fault, ?_⟩
      intro l own hown
      unfold classNames around
      rw [List.mapM_append, hbefore]
      rfl
  | ok front =>
      cases hafter : after.mapM (classesIn t) with
      | error fault =>
          left
          refine ⟨fault, ?_⟩
          intro l own hown
          unfold classNames around
          rw [List.mapM_append, hbefore, List.mapM_cons, hown, hafter]
          rfl
      | ok back =>
          right
          refine ⟨front.flatten ++ back.flatten, ?_⟩
          intro l own hown
          obtain ⟨hsorted, hmem⟩ := Sorting.eraseReps_mergeSort (front ++ own :: back).flatten
          refine ⟨_, ?_, hsorted, ?_⟩
          · unfold classNames around
            rw [List.mapM_append, hbefore, List.mapM_cons, hown, hafter]
            rfl
          · intro n
            rw [hmem, List.flatten_append, List.flatten_cons]
            simp only [List.mem_append]
            tauto

/-! ## §3  Searching -/

/-- To a directory the text leads to a file that an archive of the same files does not have under it: to a file of the set
whose path is not spelled so, or from the root to any file. -/
def LeadsAstray (t : Tree) (files : List Archive.Packed) (text : String) (bytes : Bytes) : Prop :=
  (text.startsWith "/" = true ∧ (components text, Node.file bytes) ∈ t.nodes) ∨
    (text.startsWith "/" = false ∧ ⟨joined (components text), bytes⟩ ∈ files ∧ joined (components text) ≠ text)

/-- A search goes on in the locations behind where those in front have nothing. -/
theorem findFirst_append (t : Tree) (text : String) (before ls : List Location) : findFirst t text (before ++ ls) =
    (findFirst t text before).bind fun found => found.elim (findFirst t text ls) fun bytes => .ok (some bytes) := by
  induction before with
  | nil => rfl
  | cons l before ih =>
      rw [List.cons_append, findFirst, findFirst]
      cases find t text l with
      | error fault => rfl
      | ok found =>
          cases found with
          | none => exact ih
          | some bytes => rfl

theorem load_eq (c : ClassPath) (n : String) : c.load n =
    (findFirst c.tree (Names.internal n ++ classEnding) c.locations).bind fun found =>
      found.elim (.error (.notOnClassPath n)) .ok := by
  rw [load]
  cases findFirst c.tree (Names.internal n ++ classEnding) c.locations with
  | error fault => rfl
  | ok found => cases found <;> rfl

/-- Two locations in which a search finds the same are the same to loading. A location in which it finds nothing is as if it
were not there. -/
theorem load_around {l : Location} {n : String} {found : Option Bytes}
    (h : find t (Names.internal n ++ classEnding) l = .ok found) : (around t before l after).load n =
      (findFirst t (Names.internal n ++ classEnding) before).bind fun front =>
        front.elim (found.elim ((⟨t, after⟩ : ClassPath).load n) .ok) .ok := by
  rw [load_eq, around, findFirst_append, findFirst_cons h]
  cases findFirst t (Names.internal n ++ classEnding) before with
  | error fault => rfl
  | ok front =>
      cases front with
      | some bytes => rfl
      | none =>
          cases found with
          | some bytes => rfl
          | none => exact (load_eq ⟨t, after⟩ n).symm

/-! ## §4  The exchange -/

section Parts

variable (single : t.Single) (directory : (Location.directory root).Packs t files)
  (archive : (Location.archive text).Packs t files)

include directory archive

/-- Both lists can be made or neither can. The one with the directory has the classes that the archive leaves out besides. -/
theorem classNames_exchange (before after : List Location) :
    (∃ fault, (around t before (.directory root) after).classNames = .error fault ∧
      (around t before (.archive text) after).classNames = .error fault) ∨
    ∃ names names', (around t before (.directory root) after).classNames = .ok names ∧
      (around t before (.archive text) after).classNames = .ok names' ∧
      (∀ n, n ∈ names ↔ n ∈ names' ∨ NamedLikeModule files n) ∧
      (names = names' ↔ ∀ n, NamedLikeModule files n → n ∈ names') := by
  obtain ⟨own, hown, hlists⟩ := exists_classesIn directory.inOrder
  obtain ⟨own', hown', hlists'⟩ := exists_classesIn archive.inOrder
  rcases classNames_around t before after with ⟨fault, hfault⟩ | ⟨others, hothers⟩
  · exact .inl ⟨fault, hfault _ _ hown, hfault _ _ hown'⟩
  · right
    obtain ⟨names, hnames, hsorted, hmem⟩ := hothers _ _ hown
    obtain ⟨names', hnames', hsorted', hmem'⟩ := hothers _ _ hown'
    have hmore : ∀ n, n ∈ names ↔ n ∈ names' ∨ NamedLikeModule files n := by
      intro n
      rw [hmem, hmem', hlists, hlists', lists_directory_iff directory archive, or_assoc]
    refine ⟨names, names', hnames, hnames', hmore, ?_⟩
    constructor
    · rintro rfl n hn
      exact (hmore n).mpr (.inr hn)
    · intro hlisted
      refine hsorted.eq_of_mem_iff hsorted' fun n => ?_
      rw [hmore, or_iff_left_of_imp (hlisted n)]

include single

/-- What the archive has under a text the directory has, and what it has besides is led to astray. -/
theorem find_exchange {n : String} (hn : '.' ∉ n.toList) :
    ∃ found found', find t (n ++ classEnding) (.directory root) = .ok found ∧
      find t (n ++ classEnding) (.archive text) = .ok found' ∧
      (found = found' ∨ ∃ bytes, found = some bytes ∧ found' = none ∧ LeadsAstray t files (n ++ classEnding) bytes) := by
  obtain ⟨found, hfound, hgives⟩ := exists_find single directory.inOrder hn
  obtain ⟨found', hfound', hgives'⟩ := exists_find single archive.inOrder hn
  refine ⟨found, found', hfound, hfound', ?_⟩
  cases found' with
  | some bytes =>
      left
      have hmem := (archive.holds _ _).mp ((hgives' bytes).mp rfl)
      exact (hgives bytes).mpr (((directory.holds _ _).mpr hmem).gives directory.inOrder)
  | none =>
      cases found with
      | none => exact .inl rfl
      | some bytes =>
          refine .inr ⟨bytes, rfl, rfl, ?_⟩
          have hfile := (hgives bytes).mp rfl
          cases hroot : (n ++ classEnding).startsWith "/" with
          | true =>
              rw [Location.Gives, startOf, hroot] at hfile
              exact .inl ⟨hroot, hfile⟩
          | false =>
              rw [Location.Gives, startOf, hroot] at hfile
              have hne : components (n ++ classEnding) ≠ [] :=
                components_ne_nil (List.mem_of_getLast? (getLast?_classEnding n)) (by decide) (by decide)
              have hmem := (directory.holds _ _).mp ⟨_, hne, rfl, hfile⟩
              refine .inr ⟨hroot, hmem, ?_⟩
              intro hspelled
              rw [hspelled] at hmem
              have hfound : none = some bytes := (hgives' bytes).mpr ((archive.holds _ _).mpr hmem)
              cases hfound

/-- A class is loaded the same unless its name leads astray. -/
theorem load_exchange (before after : List Location) (n : String) :
    (around t before (.directory root) after).load n = (around t before (.archive text) after).load n ∨
    ∃ bytes, LeadsAstray t files (Names.internal n ++ classEnding) bytes ∧
      (around t before (.directory root) after).load n = .ok bytes ∧
      (around t before (.archive text) after).load n = (⟨t, after⟩ : ClassPath).load n := by
  obtain ⟨found, found', hfound, hfound', hcases⟩ :=
    find_exchange single directory archive (Names.dot_notMem_internal n)
  rw [load_around hfound, load_around hfound']
  rcases hcases with rfl | ⟨bytes, rfl, rfl, hastray⟩
  · exact .inl rfl
  · cases findFirst t (Names.internal n ++ classEnding) before with
    | error fault => exact .inl rfl
    | ok front =>
        cases front with
        | some own => exact .inl rfl
        | none => exact .inr ⟨bytes, hastray, rfl, rfl⟩

end Parts

/-- A class in a package, one whose name ends like that of the description of a module, one that is spelled with two points,
and the description of a module. -/
def sampleFiles : List Archive.Packed :=
  [⟨"a/b.class", [1]⟩, ⟨"a/xmodule-info.class", [2]⟩, ⟨"a..b.class", [3]⟩, ⟨"module-info.class", [4]⟩]

theorem plain_sampleFiles : ∀ f ∈ sampleFiles, IsPlain f.name := by
  simp only [sampleFiles, List.forall_mem_cons]
  refine ⟨⟨["a", "b.class"], ?_⟩, ⟨["a", "xmodule-info.class"], ?_⟩, ⟨["a..b.class"], ?_⟩, ⟨["module-info.class"], ?_⟩,
    nofun⟩
  all_goals decide

end ClassPath

end ClassFile.Files
