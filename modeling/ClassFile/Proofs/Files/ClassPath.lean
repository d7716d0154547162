import ClassFile.Files.ClassPath
import ClassFile.Proofs.Files.Archives
import ClassFile.Proofs.Files.Paths
import ClassFile.Proofs.Naming.Lookups
import ClassFile.Proofs.Reading
import ClassFile.Proofs.Sorting
/-!
# Listing and loading the classes of a class path

Listing goes from files to names, and loading from a name to a file. A name is spelled with slashes before it is looked
for, so listing and loading fit together as long as the name of a file has no point but the one of its ending: such a
class is loaded from the first location that has it (§4). What is listed under another name is loaded as the class of that
name in slashes, if there is one.

§1 says which files stand in a location and to which of them a text leads, §2 what a location lists, §3 how it is searched.
-/

namespace ClassFile.Files

open ClassPath (classOfPath? classOfEntry? classesIn find findFirst)

/-! ## §1  The files of a location -/

/-- A file with this path stands in a location. What has a slash at its end is the entry of a directory. -/
def Location.Holds (t : Tree) : Location → (path : String) → Bytes → Prop
  | .directory root, path, bytes => ∃ p, p ≠ [] ∧ joined p = path ∧ (root ++ p, Node.file bytes) ∈ t.nodes
  | .archive text, path, bytes => ∃ a, ClassPath.archive t text = .ok a ∧ path.toList.getLast? ≠ some '/' ∧
      ∃ e ∈ a.entries, e.name = path ∧ a.content? e = some bytes

/-- A text leads to a file of a location. A directory takes the text for a path, in which slashes side by side are one; if
it begins with a slash, it leads to a file from the root, whatever the directory is. An archive compares texts. -/
def Location.Gives (t : Tree) : Location → (text : String) → Bytes → Prop
  | .directory root, text, bytes => (startOf root text ++ components text, Node.file bytes) ∈ t.nodes
  | .archive name, text, bytes => (Location.archive name).Holds t text bytes

/-- The location can be read: the files in a directory have names, and those in an archive are stored as they are. -/
def Location.InOrder (t : Tree) : Location → Prop
  | .directory root => ∀ p ∈ t.filesUnder root, ∀ x ∈ p, IsName x
  | .archive text => ∃ a, ClassPath.archive t text = .ok a ∧ ∀ e ∈ a.entries, ∃ bytes, a.content? e = some bytes

variable {t : Tree} {l : Location} {n : String} {bytes : Bytes}

/-- The path of a file leads to it. -/
theorem Location.Holds.gives (inOrder : l.InOrder t) {path : String} (h : l.Holds t path bytes) :
    l.Gives t path bytes := by
  cases l with
  | archive text => exact h
  | directory root =>
      obtain ⟨p, hp, rfl, hfile⟩ := h
      have names := inOrder p (Tree.mem_filesUnder.mpr ⟨hp, bytes, hfile⟩)
      rwa [Gives, startOf_joined hp names, components_joined hp names]

theorem getLast?_classEnding (n : String) : (n ++ classEnding).toList.getLast? = some 's' := by
  rw [String.toList_append, List.getLast?_append]
  rfl

theorem slash_classEnding (n : String) : (n ++ classEnding).toList.getLast? ≠ some '/' := by
  rw [getLast?_classEnding]
  decide

theorem ClassPath.nodup_of_archive {text : String} {a : Archive} (h : ClassPath.archive t text = .ok a) :
    (a.entries.map Archive.Entry.name).Nodup := by
  rw [ClassPath.archive] at h
  split at h
  · rename_i hfound
    obtain rfl := Except.ok.inj h
    obtain ⟨contents, -, hopened⟩ := Option.bind_eq_some_iff.mp hfound
    exact Archive.nodup_names hopened
  · cases h

/-- An archive of files that are stored as they are is in order, and holds these files. -/
theorem inOrder_pack {text : String} {files : List Archive.Packed} (h : t.file? text = some (Archive.pack files))
    (fits : Archive.Fits files) (distinct : (files.map Archive.Packed.name).Nodup) :
    (Location.archive text).InOrder t ∧ ∀ path bytes, (Location.archive text).Holds t path bytes ↔
      path.toList.getLast? ≠ some '/' ∧ ⟨path, bytes⟩ ∈ files := by
  obtain ⟨a, ha, hfiles⟩ := Archive.ofBytes?_pack fits distinct
  have harchive : ClassPath.archive t text = .ok a := by
    rw [ClassPath.archive, h, Option.bind_some, ha]
  have hmem (path : String) (found : Option Bytes) :
      (∃ e ∈ a.entries, e.name = path ∧ a.content? e = found) ↔ ∃ f ∈ files, f.name = path ∧ some f.bytes = found := by
    have hpair : (path, found) ∈ a.entries.map (fun e => (e.name, a.content? e)) ↔
        (path, found) ∈ files.map fun f => (f.name, some f.bytes) := by rw [hfiles]
    simpa [List.mem_map, Prod.ext_iff] using hpair
  constructor
  · refine ⟨a, harchive, fun e he => ?_⟩
    obtain ⟨f, -, -, hbytes⟩ := (hmem e.name (a.content? e)).mp ⟨e, he, rfl, rfl⟩
    exact ⟨f.bytes, hbytes.symm⟩
  · intro path bytes
    constructor
    · rintro ⟨a', ha', hslash, hentry⟩
      obtain rfl := Except.ok.inj (ha'.symm.trans harchive)
      obtain ⟨f, hf, rfl, hbytes⟩ := (hmem path (some bytes)).mp hentry
      exact ⟨hslash, Option.some.inj hbytes ▸ hf⟩
    · rintro ⟨hslash, hf⟩
      exact ⟨a, harchive, hslash, (hmem path (some bytes)).mpr ⟨_, hf, rfl, rfl⟩⟩

/-! ## §2  Listing -/

/-- The location leaves a class out. A directory knows one description of a module; to an archive every name that ends like
one is. -/
def Location.Hides : Location → (name : String) → Prop
  | .directory _, name => name = moduleDescription
  | .archive _, name => ∃ front, name = front ++ moduleDescription

/-- A location lists a class if it has its file and does not leave it out. -/
def Location.Lists (t : Tree) (l : Location) (name : String) : Prop :=
  (∃ bytes, l.Holds t (name ++ classEnding) bytes) ∧ ¬l.Hides name

theorem isSome_withoutEnding? {ending text : String} :
    (withoutEnding? ending text).isSome ↔ ∃ front, text = front ++ ending := by
  rw [Option.isSome_iff_exists]
  simp only [withoutEnding?_eq_some]

instance (l : Location) (name : String) : Decidable (l.Hides name) :=
  match l with
  | .directory _ => inferInstanceAs (Decidable (name = moduleDescription))
  | .archive _ => decidable_of_iff _ isSome_withoutEnding?

theorem classOfPath?_eq_some {p : Path} : classOfPath? p = some n ↔
    joined p = n ++ classEnding ∧ n ≠ moduleDescription := by
  rw [classOfPath?, Option.filter_eq_some_iff, withoutEnding?_eq_some, bne_iff_ne]

theorem classOfEntry?_eq_some {e : Archive.Entry} : classOfEntry? e = some n ↔
    e.name = n ++ classEnding ∧ ¬∃ front, n = front ++ moduleDescription := by
  unfold classOfEntry?
  rw [Option.filter_eq_some_iff, withoutEnding?_eq_some]
  refine and_congr_right fun _ => ?_
  rw [← isSome_withoutEnding?, Option.isNone_iff_eq_none, Option.not_isSome_iff_eq_none]

theorem exists_classesIn (inOrder : l.InOrder t) :
    ∃ names, classesIn t l = .ok names ∧ ∀ n, n ∈ names ↔ l.Lists t n := by
  cases l with
  | directory root =>
      refine ⟨_, rfl, fun n => ?_⟩
      simp only [List.mem_filterMap, classOfPath?_eq_some, Tree.mem_filesUnder]
      constructor
      · rintro ⟨p, ⟨hp, bytes, hfile⟩, hjoined, hn⟩
        exact ⟨⟨bytes, p, hp, hjoined, hfile⟩, hn⟩
      · rintro ⟨⟨bytes, p, hp, hjoined, hfile⟩, hn⟩
        exact ⟨p, ⟨hp, bytes, hfile⟩, hjoined, hn⟩
  | archive text =>
      obtain ⟨a, ha, hstored⟩ := inOrder
      have hopen : a.entries.all a.canOpen = true := by
        refine List.all_eq_true.mpr fun e he => ?_
        obtain ⟨bytes, hbytes⟩ := hstored e he
        exact Archive.canOpen_of_content? hbytes
      refine ⟨a.entries.filterMap classOfEntry?, ?_, fun n => ?_⟩
      · rw [classesIn, ha]
        exact if_pos hopen
      · simp only [List.mem_filterMap, classOfEntry?_eq_some]
        constructor
        · rintro ⟨e, he, hname, hn⟩
          obtain ⟨bytes, hbytes⟩ := hstored e he
          exact ⟨⟨bytes, a, ha, slash_classEnding n, e, he, hname, hbytes⟩, hn⟩
        · rintro ⟨⟨bytes, a', ha', -, e, he, hname, -⟩, hn⟩
          obtain rfl := Except.ok.inj (ha'.symm.trans ha)
          exact ⟨e, he, hname, hn⟩

/-- The locations of a class path are in order, and so is the tree they lie in. -/
structure ClassPath.InOrder (c : ClassPath) : Prop where
  single : c.tree.Single
  locations : ∀ l ∈ c.locations, l.InOrder c.tree

theorem exists_mapM_classesIn {ls : List Location} (inOrder : ∀ l ∈ ls, l.InOrder t) :
    ∃ names, ls.mapM (classesIn t) = .ok names ∧ ∀ n, n ∈ names.flatten ↔ ∃ l ∈ ls, l.Lists t n := by
  induction ls with
  | nil => exact ⟨[], rfl, by simp⟩
  | cons l ls ih =>
      obtain ⟨own, hown, hmem⟩ := exists_classesIn (inOrder l List.mem_cons_self)
      obtain ⟨names, hnames, hmems⟩ := ih fun l hl => inOrder l (List.mem_cons_of_mem _ hl)
      refine ⟨own :: names, ?_, fun n => ?_⟩
      · rw [List.mapM_cons, hown, hnames]
        rfl
      · rw [List.flatten_cons, List.mem_append, hmem, hmems, List.exists_mem_cons_iff]

/-- The classes of a class path are those that its locations list, in ascending order. -/
theorem ClassPath.InOrder.exists_classNames {c : ClassPath} (inOrder : c.InOrder) :
    ∃ names, c.classNames = .ok names ∧ names.Pairwise (· < ·) ∧
      ∀ n, n ∈ names ↔ ∃ l ∈ c.locations, l.Lists c.tree n := by
  obtain ⟨names, hnames, hmem⟩ := exists_mapM_classesIn inOrder.locations
  obtain ⟨hsorted, hmems⟩ := Sorting.eraseReps_mergeSort names.flatten
  refine ⟨_, ?_, hsorted, fun n => (hmems n).trans (hmem n)⟩
  rw [ClassPath.classNames, hnames]
  rfl

/-! ## §3  Searching -/

theorem find_archive {text : String} {a : Archive} (ha : ClassPath.archive t text = .ok a) (name : String) :
    find t name (.archive text) =
      match a.entry? name with
      | none => .ok none
      | some e =>
          match a.content? e with
          | some bytes => .ok (some bytes)
          | none => .error (.unreadable (text ++ ":" ++ name)) := by
  rw [find, ha]
  rfl

/-- A text that a class is looked for under finds the file that it leads to. -/
theorem exists_find (single : t.Single) (inOrder : l.InOrder t) (hn : '.' ∉ n.toList) :
    ∃ found, find t (n ++ classEnding) l = .ok found ∧
      ∀ bytes, found = some bytes ↔ l.Gives t (n ++ classEnding) bytes := by
  cases l with
  | directory root =>
      have hcount : (n ++ classEnding).toList.count '.' ≤ 1 := by
        rw [String.toList_append, List.count_append, List.count_eq_zero.mpr hn]
        decide
      exact ⟨_, rfl, fun bytes => Tree.walk_bytes?_eq_some single (parentName_notMem_components hcount)⟩
  | archive text =>
      obtain ⟨a, ha, hstored⟩ := inOrder
      have unique := ClassPath.nodup_of_archive ha
      rw [find_archive ha]
      cases hentry : a.entry? (n ++ classEnding) with
      | none =>
          refine ⟨none, rfl, fun bytes => ⟨nofun, ?_⟩⟩
          rintro ⟨a', ha', -, e, he, hname, -⟩
          obtain rfl := Except.ok.inj (ha'.symm.trans ha)
          rw [(Archive.entry?_eq_some unique).mpr ⟨he, hname⟩] at hentry
          cases hentry
      | some e =>
          obtain ⟨he, hname⟩ := (Archive.entry?_eq_some unique).mp hentry
          obtain ⟨own, hown⟩ := hstored e he
          refine ⟨some own, ?_, fun bytes => ⟨fun h => ?_, ?_⟩⟩
          · dsimp only
            rw [hown]
          · obtain rfl := Option.some.inj h
            exact ⟨a, ha, slash_classEnding n, e, he, hname, hown⟩
          · rintro ⟨a', ha', -, e', he', hname', hbytes⟩
            obtain rfl := Except.ok.inj (ha'.symm.trans ha)
            obtain rfl := List.inj_on_of_nodup_map unique he he' (hname.trans hname'.symm)
            exact hown.symm.trans hbytes

/-- The file that a text leads to in the first of some locations in which it leads to one. -/
def FirstGiven (t : Tree) (ls : List Location) (text : String) (bytes : Bytes) : Prop :=
  ∃ before l after, ls = before ++ l :: after ∧ (∀ other ∈ before, ∀ bytes, ¬other.Gives t text bytes) ∧
    l.Gives t text bytes

theorem firstGiven_cons {ls : List Location} {text : String} : FirstGiven t (l :: ls) text bytes ↔
    l.Gives t text bytes ∨ (∀ bytes, ¬l.Gives t text bytes) ∧ FirstGiven t ls text bytes := by
  constructor
  · rintro ⟨before, l', after, hls, hbefore, hgives⟩
    cases before with
    | nil =>
        obtain ⟨rfl, -⟩ := List.cons.inj hls
        exact .inl hgives
    | cons first before =>
        obtain ⟨rfl, rfl⟩ := List.cons.inj hls
        exact .inr ⟨hbefore l List.mem_cons_self, before, l', after, rfl,
          fun other hother => hbefore other (List.mem_cons_of_mem _ hother), hgives⟩
  · rintro (hgives | ⟨hnone, before, l', after, rfl, hbefore, hgives⟩)
    · exact ⟨[], l, ls, rfl, nofun, hgives⟩
    · refine ⟨l :: before, l', after, rfl, fun other hother => ?_, hgives⟩
      rcases List.mem_cons.mp hother with rfl | hother
      · exact hnone
      · exact hbefore other hother

theorem findFirst_cons {text : String} {found : Option Bytes} (h : find t text l = .ok found) (ls : List Location) :
    findFirst t text (l :: ls) = found.elim (findFirst t text ls) fun bytes => .ok (some bytes) := by
  cases found with
  | some bytes =>
      rw [findFirst, h]
      rfl
  | none =>
      rw [findFirst, h]
      rfl

theorem exists_findFirst (single : t.Single) {ls : List Location} (inOrder : ∀ l ∈ ls, l.InOrder t)
    (hn : '.' ∉ n.toList) : ∃ found, findFirst t (n ++ classEnding) ls = .ok found ∧
      ∀ bytes, found = some bytes ↔ FirstGiven t ls (n ++ classEnding) bytes := by
  induction ls with
  | nil =>
      refine ⟨none, rfl, fun bytes => ⟨nofun, ?_⟩⟩
      rintro ⟨before, l, after, hls, -⟩
      simp at hls
  | cons l ls ih =>
      obtain ⟨own, hown, hgives⟩ := exists_find single (inOrder l List.mem_cons_self) hn
      obtain ⟨rest, hrest, hfirst⟩ := ih fun l hl => inOrder l (List.mem_cons_of_mem _ hl)
      rw [findFirst_cons hown]
      cases own with
      | some own =>
          refine ⟨some own, rfl, fun bytes => ?_⟩
          rw [firstGiven_cons, hgives]
          exact ⟨.inl, fun h => h.resolve_right fun h => h.1 own ((hgives own).mp rfl)⟩
      | none =>
          refine ⟨rest, hrest, fun bytes => ?_⟩
          have hnone (bytes : Bytes) : ¬l.Gives t (n ++ classEnding) bytes := by
            rw [← hgives]
            nofun
          rw [firstGiven_cons, hfirst]
          exact ⟨fun h => .inr ⟨hnone, h⟩, fun h => (h.resolve_left (hnone bytes)).2⟩

/-- What a text leads to in some location it leads to in a first one. -/
theorem exists_firstGiven {ls : List Location} {text : String} (hl : l ∈ ls) (h : l.Gives t text bytes) :
    ∃ bytes, FirstGiven t ls text bytes := by
  induction ls with
  | nil => cases hl
  | cons first ls ih =>
      by_cases hfirst : ∃ bytes, first.Gives t text bytes
      · obtain ⟨own, hown⟩ := hfirst
        exact ⟨own, firstGiven_cons.mpr (.inl hown)⟩
      · rcases List.mem_cons.mp hl with rfl | hl
        · exact absurd ⟨bytes, h⟩ hfirst
        · obtain ⟨own, hown⟩ := ih hl
          exact ⟨own, firstGiven_cons.mpr (.inr ⟨fun bytes hbytes => hfirst ⟨bytes, hbytes⟩, hown⟩)⟩

/-! ## §4  Loading what is listed -/

namespace ClassPath

variable {c : ClassPath}

/-- A class is loaded from the first location in which its name in slashes leads to a file. -/
theorem InOrder.load_eq_ok (inOrder : c.InOrder) : c.load n = .ok bytes ↔
    FirstGiven c.tree c.locations (Names.internal n ++ classEnding) bytes := by
  obtain ⟨found, hfound, hfirst⟩ :=
    exists_findFirst inOrder.single inOrder.locations (Names.dot_notMem_internal n)
  rw [load, hfound, ← hfirst]
  cases found with
  | some own => exact ⟨fun h => congrArg some (Except.ok.inj h), fun h => congrArg Except.ok (Option.some.inj h)⟩
  | none => exact ⟨nofun, nofun⟩

/-- A directory and an archive with a class of one name in both, a class of its own in the archive, and in the directory two
files with points in their names. Beside them, at the root, stands a file whose path is how the second of these is spelled. -/
def sampleClassPath : ClassPath where
  tree := ⟨[(["cp", "a", "B.class"], .file [1]), (["cp", "x.y.class"], .file [2]), (["cp", ".e.class"], .file [5]),
    ([rootName, "e.class"], .file [6]),
    (["lib.jar"], .file (Archive.pack [⟨"a/B.class", [3]⟩, ⟨"c/D.class", [4]⟩]))]⟩
  locations := [.directory ["cp"], .archive "lib.jar"]

/-- The archive of the sample is in order, and its files are the two that were packed. -/
theorem sampleClassPath_archive : (Location.archive "lib.jar").InOrder sampleClassPath.tree ∧
    ∀ path bytes, (Location.archive "lib.jar").Holds sampleClassPath.tree path bytes ↔
      path.toList.getLast? ≠ some '/' ∧
        ⟨path, bytes⟩ ∈ [(⟨"a/B.class", [3]⟩ : Archive.Packed), ⟨"c/D.class", [4]⟩] := by
  have hmeans : meansDirectory "lib.jar" = false := by decide +kernel
  have hplace : sampleClassPath.tree.locate "lib.jar" = some ["lib.jar"] := by decide +kernel
  have hfile : sampleClassPath.tree.file? "lib.jar" =
      some (Archive.pack [⟨"a/B.class", [3]⟩, ⟨"c/D.class", [4]⟩]) := by
    rw [Tree.file?, hmeans, hplace]
    rfl
  exact inOrder_pack hfile ⟨by decide +kernel, by decide +kernel, by decide +kernel⟩ (by decide)

theorem inOrder_sampleClassPath : sampleClassPath.InOrder where
  single := Tree.single_of_nodup (by decide)
  locations l hl := by
    rcases List.mem_pair.mp hl with rfl | rfl
    · have names : ∀ p ∈ sampleClassPath.tree.filesUnder ["cp"], ∀ x ∈ p, IsName x := by decide
      exact names
    · exact sampleClassPath_archive.1

end ClassPath

end ClassFile.Files
