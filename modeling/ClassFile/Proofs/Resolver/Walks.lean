import ClassFile.Assignable
import ClassFile.Proofs.Resolver.Worlds
import Mathlib.Data.Set.Function
/-!
# Walks in renamed worlds

A walk up from a class compares names and resolves them, and does nothing else with them. So when all names of a world are
replaced, different ones by different ones, and the root by itself, the walk takes the same way through the new world and
ends in the same result (§2). With every name replaced by itself that says that two ways to serve a world cannot be told
apart (§3).

The invariant of a walk is that the two resolvers are at the same class and have visited the same classes, up to names.
-/

namespace ClassFile

/-! ## §1  New names -/

/-- The description with other names. -/
def ClassDescription.renamed (f : String → String) (d : ClassDescription) : ClassDescription :=
  { d with
    name := f d.name
    superclass := d.superclass.map f
    interfaces := d.interfaces.map f }

/-- The fault of a host about another name. -/
def HostFault.renamed (f : String → String) : HostFault → HostFault
  | .notLoaded name => .notLoaded (f name)
  | .notOnClassPath name => .notOnClassPath (f name)
  | other => other

/-- The error of a walk about another class. -/
def Error.renamed (f : String → String) : Error → Error
  | .classNotFound name source => .classNotFound (f name) (source.renamed f)
  | .cycleDetected name => .cycleDetected (f name)
  | .hierarchyTooDeep name limit => .hierarchyTooDeep (f name) limit
  | other => other

theorem Error.renamed_id (e : Error) : e.renamed id = e := by
  cases e with
  | classNotFound name source => cases source <;> rfl
  | _ => rfl

namespace World

/-- The world with other names. -/
def renamed (f : String → String) (w : World) : World :=
  w.map (ClassDescription.renamed f)

theorem renamed_id (w : World) : w.renamed id = w := by
  have hid : ClassDescription.renamed id = id := by
    funext d
    simp [ClassDescription.renamed]
  rw [renamed, hid, List.map_id]

/-- The new names keep apart what is to be kept apart: the names of the world, the root, and whatever else is asked for. The
root has no other name, and spellings are not mixed. -/
structure RenamedBy (w : World) (f : String → String) (names : Set String) : Prop where
  mem : ∀ n ∈ w.names, n ∈ names
  root : rootClass ∈ names ∧ f rootClass = rootClass
  injOn : Set.InjOn f names
  spelling : ∀ n ∈ names, Names.internal n ∈ names ∧ Names.internal (f n) = f (Names.internal n)

variable {w : World} {f : String → String} {names : Set String}

theorem RenamedBy.beq (h : w.RenamedBy f names) {m n : String} (hm : m ∈ names) (hn : n ∈ names) :
    (f m == f n) = (m == n) := by
  by_cases heq : m = n
  · rw [heq, beq_self_eq_true, beq_self_eq_true]
  · rw [beq_false_of_ne heq, beq_false_of_ne fun hf => heq (h.injOn hm hn hf)]

theorem RenamedBy.name_mem (h : w.RenamedBy f names) {d : ClassDescription} (hd : d ∈ w) : d.name ∈ names :=
  h.mem _ (mem_names hd _ List.mem_cons_self)

theorem RenamedBy.superclass_mem (h : w.RenamedBy f names) {d : ClassDescription} (hd : d ∈ w) :
    ∀ n ∈ d.superclass, n ∈ names := by
  intro n hn
  refine h.mem _ (mem_names hd _ ?_)
  rw [Option.mem_def] at hn
  simp [ClassDescription.names, hn]

theorem RenamedBy.interfaces_mem (h : w.RenamedBy f names) {d : ClassDescription} (hd : d ∈ w) :
    ∀ n ∈ d.interfaces, n ∈ names := by
  intro n hn
  refine h.mem _ (mem_names hd _ ?_)
  simp [ClassDescription.names, hn]

/-- The class of a new name is the class of the old one. -/
theorem RenamedBy.class?_renamed (h : w.RenamedBy f names) {n : String} (hn : n ∈ names) :
    (w.renamed f).class? (f n) = (w.class? n).map (ClassDescription.renamed f) := by
  have hbeq {m : String} (hm : m ∈ names) : n ∈ names → (f m == f n) = (m == n) := h.beq hm
  have hname : ∀ d ∈ w, d.name ∈ names := fun d hd => h.name_mem hd
  clear h
  induction w with
  | nil => rfl
  | cons d w ih =>
      have hsame : ((d.renamed f).name == f n) = (d.name == n) := hbeq (hname d List.mem_cons_self) hn
      rw [class?, class?, renamed, List.map_cons, List.find?_cons, List.find?_cons, hsame]
      split
      · rfl
      · exact ih fun d hd => hname d (List.mem_cons_of_mem _ hd)

end World

/-! ## §2  The same way through both worlds -/

section Renamed

variable {w : World} {f : String → String} {names : Set String} {r r' : Resolver}

/-- Both resolvers find the class, or both do not. -/
theorem Resolver.Serves.resolve_renamed (h : w.RenamedBy f names) (hr : r.Serves w) (hr' : r'.Serves (w.renamed f))
    {name name' : String} (hname : Names.internal name ∈ names)
    (hname' : Names.internal name' = f (Names.internal name)) :
    (∃ d v v', d ∈ w ∧ r.resolve name = .ok v ∧ v.Answers d ∧ r'.resolve name' = .ok v' ∧
      v'.Answers (d.renamed f)) ∨
    ∃ e, r.resolve name = .error e ∧ r'.resolve name' = .error (e.renamed f) := by
  have hclass := h.class?_renamed hname
  rw [← hname'] at hclass
  cases hd : w.class? (Names.internal name) with
  | some d =>
      rw [hd] at hclass
      obtain ⟨v, hv, hanswers⟩ := hr.found name d hd
      obtain ⟨v', hv', hanswers'⟩ := hr'.found name' (d.renamed f) hclass
      exact .inl ⟨d, v, v', (World.class?_eq_some hd).1, hv, hanswers, hv', hanswers'⟩
  | none =>
      rw [hd] at hclass
      refine .inr ⟨_, hr.missing name hd, ?_⟩
      rw [hr'.missing name' hclass, hname']
      rfl

theorem ClassView.hits_renamed (h : w.RenamedBy f names) {d : ClassDescription} (hd : d ∈ w) {v v' : ClassView}
    (hv : v.Answers d) (hv' : v'.Answers (d.renamed f)) {target : String} (ht : target ∈ names) :
    v'.hits (f target) = v.hits target := by
  have hsuperclass : (d.superclass.map f == some (f target)) = (d.superclass == some target) := by
    cases hs : d.superclass with
    | none => rfl
    | some n => exact h.beq (h.superclass_mem hd n hs) ht
  have hinterfaces : (d.interfaces.map f).contains (f target) = d.interfaces.contains target := by
    rw [Bool.eq_iff_iff, List.contains_iff_mem, List.contains_iff_mem, List.mem_map]
    constructor
    · rintro ⟨n, hn, heq⟩
      rwa [← h.injOn (h.interfaces_mem hd n hn) ht heq]
    · intro hmem
      exact ⟨target, hmem, rfl⟩
  rw [hits, hits, hv.name, hv.superclass, hv.interfaces, hv'.name, hv'.superclass, hv'.interfaces]
  rw [show (d.renamed f).name = f d.name from rfl, h.beq (h.name_mem hd) ht]
  rw [show (d.renamed f).superclass = d.superclass.map f from rfl, hsuperclass]
  rw [show (d.renamed f).interfaces = d.interfaces.map f from rfl, hinterfaces]

/-- Two walks have visited the same classes. -/
def SameVisited (f : String → String) (names : Set String) (visited visited' : Std.HashSet String) : Prop :=
  ∀ n ∈ names, visited'.contains (f n) = visited.contains n

variable {visited visited' : Std.HashSet String} {d : ClassDescription} {v v' : ClassView}

theorem sameVisited_empty : SameVisited f names ∅ ∅ := by
  intro n _
  rw [Std.HashSet.contains_empty, Std.HashSet.contains_empty]

theorem SameVisited.contains (hvisited : SameVisited f names visited visited') (h : w.RenamedBy f names) (hd : d ∈ w)
    (hv : v.Answers d) (hv' : v'.Answers (d.renamed f)) :
    visited'.contains v'.name = visited.contains v.name := by
  rw [hv.name, hv'.name]
  exact hvisited _ (h.name_mem hd)

theorem SameVisited.insert (hvisited : SameVisited f names visited visited') (h : w.RenamedBy f names) (hd : d ∈ w)
    (hv : v.Answers d) (hv' : v'.Answers (d.renamed f)) :
    SameVisited f names (visited.insert v.name) (visited'.insert v'.name) := by
  intro n hn
  have hname : (f d.name == f n) = (d.name == n) := h.beq (h.name_mem hd) hn
  rw [Std.HashSet.contains_insert, Std.HashSet.contains_insert, hvisited n hn, hv.name, hv'.name]
  exact congrArg (· || visited.contains n) hname

/-- Both walks end in the same way. -/
theorem Resolver.walk_renamed (h : w.RenamedBy f names) (hr : r.Serves w) (hr' : r'.Serves (w.renamed f))
    {target child : String} (ht : target ∈ names) (maxDepth rounds : Nat)
    (hvisited : SameVisited f names visited visited') (hd : d ∈ w) (hv : v.Answers d)
    (hv' : v'.Answers (d.renamed f)) :
    r'.walk (f target) (f child) maxDepth rounds visited' v' =
      (r.walk target child maxDepth rounds visited v).mapError (Error.renamed f) := by
  induction rounds generalizing visited visited' d v v' with
  | zero =>
      rw [walk, walk, hvisited.contains h hd hv hv']
      split
      · rw [hv.name, hv'.name]
        rfl
      · rfl
  | succ rounds ih =>
      rw [walk, walk, hvisited.contains h hd hv hv', ClassView.hits_renamed h hd hv hv' ht]
      split
      · rw [hv.name, hv'.name]
        rfl
      split
      · rfl
      rw [hv.superclass, hv'.superclass, show (d.renamed f).superclass = d.superclass.map f from rfl]
      cases hs : d.superclass with
      | none => rfl
      | some above =>
          have habove := h.superclass_mem hd above hs
          have hroot : (f above == rootClass) = (above == rootClass) := by
            rw [← h.beq habove h.root.1, h.root.2]
          dsimp only [Option.map_some]
          rw [hroot]
          split
          · rfl
          obtain ⟨hmem, hspelling⟩ := h.spelling above habove
          rcases hr.resolve_renamed h hr' hmem hspelling with
            ⟨d₁, v₁, v₁', hd₁, hfound, hv₁, hfound', hv₁'⟩ | ⟨e, hmissing, hmissing'⟩
          · rw [hfound, hfound']
            exact ih (hvisited.insert h hd hv hv') hd₁ hv₁ hv₁'
          · rw [hmissing, hmissing']
            rfl

/-- Both resolvers give the same answer, up to names. -/
theorem Resolver.isAssignable_renamed (h : w.RenamedBy f names) (hr : r.Serves w) (hr' : r'.Serves (w.renamed f))
    (maxDepth : Nat) {p p' c c' : String} (hp : Names.internal p ∈ names)
    (hp' : Names.internal p' = f (Names.internal p)) (hc : Names.internal c ∈ names)
    (hc' : Names.internal c' = f (Names.internal c)) :
    r'.isAssignable maxDepth p' c' = (r.isAssignable maxDepth p c).mapError (Error.renamed f) := by
  rw [isAssignable, isAssignable]
  rcases hr.resolve_renamed h hr' hp hp' with
    ⟨parent, v, v', hparent, hfound, hv, hfound', hv'⟩ | ⟨e, hmissing, hmissing'⟩
  · rcases hr.resolve_renamed h hr' hc hc' with
      ⟨child, u, u', hchild, hresolved, hu, hresolved', hu'⟩ | ⟨e, hmissing, hmissing'⟩
    · rw [hfound, hfound', hresolved, hresolved']
      show r'.isAssignableFrom maxDepth v' u' = (r.isAssignableFrom maxDepth v u).mapError _
      rw [isAssignableFrom, isAssignableFrom, hv.name, hu.name, hv'.name, hu'.name]
      exact walk_renamed h hr hr' (h.name_mem hparent) maxDepth maxDepth sameVisited_empty hchild hu hu'
    · rw [hfound, hfound', hmissing, hmissing']
      rfl
  · rw [hmissing, hmissing']
    rfl

end Renamed

/-! ## §3  Two ways to serve one world -/

/-- What a walk may end with instead of an answer. -/
inductive Error.OfWalk : Error → Prop where
  | cycleDetected (name : String) : OfWalk (.cycleDetected name)
  | hierarchyTooDeep (name : String) (limit : Nat) : OfWalk (.hierarchyTooDeep name limit)
  | classNotFound (name : String) (source : HostFault) : OfWalk (.classNotFound name source)

section Served

variable {w : World} {r r' : Resolver} {e : Error}

theorem Resolver.Serves.ofWalk_of_resolve (hr : r.Serves w) {name : String} (h : r.resolve name = .error e) :
    e.OfWalk := by
  cases hclass : w.class? (Names.internal name) with
  | some d =>
      obtain ⟨v, hv, -⟩ := hr.found name d hclass
      rw [hv] at h
      cases h
  | none =>
      rw [hr.missing name hclass] at h
      obtain rfl := Except.error.inj h
      exact .classNotFound _ _

theorem Resolver.Serves.ofWalk_of_walk (hr : r.Serves w) {target child : String} {maxDepth rounds : Nat}
    {visited : Std.HashSet String} {v : ClassView}
    (h : r.walk target child maxDepth rounds visited v = .error e) : e.OfWalk := by
  induction rounds generalizing visited v with
  | zero =>
      rw [walk] at h
      split at h
      · obtain rfl := Except.error.inj h
        exact .cycleDetected _
      · obtain rfl := Except.error.inj h
        exact .hierarchyTooDeep _ _
  | succ rounds ih =>
      rw [walk] at h
      split at h
      · obtain rfl := Except.error.inj h
        exact .cycleDetected _
      split at h
      · cases h
      split at h
      · cases h
      split at h
      · cases h
      split at h
      · rename_i hresolve
        obtain rfl := Except.error.inj h
        exact hr.ofWalk_of_resolve hresolve
      · exact ih h

theorem Resolver.Serves.ofWalk_of_isAssignable (hr : r.Serves w) {maxDepth : Nat} {p c : String}
    (h : r.isAssignable maxDepth p c = .error e) : e.OfWalk := by
  rcases except_bind_eq_error.mp h with h | ⟨parent, -, h⟩
  · exact hr.ofWalk_of_resolve h
  rcases except_bind_eq_error.mp h with h | ⟨child, -, h⟩
  · exact hr.ofWalk_of_resolve h
  · exact hr.ofWalk_of_walk h

theorem World.renamedBy_id (w : World) : w.RenamedBy id Set.univ where
  mem _ _ := Set.mem_univ _
  root := ⟨Set.mem_univ _, rfl⟩
  injOn := Function.injective_id.injOn
  spelling _ _ := ⟨Set.mem_univ _, rfl⟩

/-- Nobody can tell two resolvers of one world apart. -/
theorem Resolver.Serves.isAssignable_eq (hr : r.Serves w) (hr' : r'.Serves w) (maxDepth : Nat) (p c : String) :
    r.isAssignable maxDepth p c = r'.isAssignable maxDepth p c := by
  have hsame : r'.Serves (w.renamed id) := by
    rwa [w.renamed_id]
  have hrenamed := isAssignable_renamed w.renamedBy_id hr hsame maxDepth (Set.mem_univ _) (rfl : _ = id (Names.internal p))
    (Set.mem_univ _) (rfl : _ = id (Names.internal c))
  have hid : Error.renamed id = id := funext Error.renamed_id
  rw [hrenamed, hid]
  cases r.isAssignable maxDepth p c <;> rfl

end Served

/-- **Loaded and stored classes.** However a world is served, a resolver answers about each class as the description does, and
says of every other name that there is no such class. So assignability is the same however it is served: an answer, or one
of three errors. -/
theorem isAssignable_of_serving {w : World} (s s' : Serving w) (names names' : Naming.Translator) :
    (∀ name d, w.class? (Names.internal name) = some d →
      ∃ v, (s.resolver names).resolve name = .ok v ∧ v.Answers d) ∧
    (∀ name, w.class? (Names.internal name) = none → (s.resolver names).resolve name =
      .error (.classNotFound (Names.internal name) (.notLoaded (Names.internal name)))) ∧
    ∀ maxDepth p c,
      (s.resolver names).isAssignable maxDepth p c = (s'.resolver names').isAssignable maxDepth p c ∧
        ∀ e, (s.resolver names).isAssignable maxDepth p c = .error e → e.OfWalk := by
  have hr := s.serves names
  have hr' := s'.serves names'
  refine ⟨hr.found, hr.missing, fun maxDepth p c => ⟨hr.isAssignable_eq hr' maxDepth p c, ?_⟩⟩
  intro e he
  exact hr.ofWalk_of_isAssignable he

/-- An interface, a class that lists it, and a class below. -/
def sampleWorld : World :=
  [⟨rootClass, ⟨0x0021⟩, none, []⟩,
    ⟨"a/I", ⟨0x0601⟩, some rootClass, []⟩,
    ⟨"a/B", ⟨0x0021⟩, some rootClass, ["a/I"]⟩,
    ⟨"a/C", ⟨0x0021⟩, some "a/B", []⟩]

theorem isAssignable_of_serving_sampleWorld : ∃ s s' : Serving sampleWorld,
    s.records = [] ∧ s'.handles = [] ∧ ∀ p c,
      (s.resolver .identity).isAssignable 2 p c = (s'.resolver .identity).isAssignable 2 p c := by
  have distinct : (sampleWorld.map ClassDescription.name).Nodup := by decide
  have shaped : ∀ d ∈ sampleWorld, d.access.isInterface = true → d.superclass = some rootClass := by decide
  have fit : ∀ n ∈ sampleWorld.names, (Text.ModifiedUtf8.encodeString n).length ≤ Interning.maxTextBytes := by decide
  have room : ∀ d ∈ sampleWorld, 5 + 2 * d.interfaces.length ≤ Pool.maxSlots := by decide
  obtain ⟨s, -, hrecords⟩ := World.exists_serving distinct (fun _ => true)
    (fun d hd _ => shaped d hd) (fun _ _ h => nomatch h)
  obtain ⟨s', hhandles, -⟩ := World.exists_serving distinct (fun _ => false)
    (fun _ _ h => nomatch h) (fun d hd _ => ⟨fun n hn => fit n (World.mem_names hd n hn), room d hd⟩)
  obtain ⟨-, -, hsame⟩ := isAssignable_of_serving s s' .identity .identity
  exact ⟨s, s', hrecords, hhandles, fun p c => (hsame 2 p c).1⟩

end ClassFile
