import ClassFile.Proofs.Resolver.Walks
/-!
# Renamed worlds behind name tables

Names are looked up in the table once, when a class is asked for by its canonical name; from there on a walk sees runtime
names only. A table that keeps the names of a world apart renames that world, so the walk through the runtime names ends as the one
through the canonical names does. Names may be swapped, or passed on from one class to the next.
-/

namespace ClassFile

open Naming (Table)

/-- The names a walk may compare: those of the world, the root, and the two it is asked for. -/
def World.involved (w : World) (parent child : String) : Set String :=
  {n | n ∈ w.names ∨ n = rootClass ∨ n = Names.internal parent ∨ n = Names.internal child}

/-- Both classes are known by their canonical names. -/
def Resolver.isAssignableCanonical (r : Resolver) (maxDepth : Nat) (parent child : String) : Except Error Bool := do
  let p ← r.resolveCanonical parent
  let c ← r.resolveCanonical child
  r.isAssignableFrom maxDepth p c

/-- Names are looked up before the walk, and not on the way. -/
theorem Resolver.isAssignableCanonical_eq {r : Resolver} {parent child parent' child' : String}
    (hparent : r.names.runtimeName parent = .ok parent') (hchild : r.names.runtimeName child = .ok child')
    (maxDepth : Nat) : r.isAssignableCanonical maxDepth parent child = r.isAssignable maxDepth parent' child' := by
  rw [isAssignableCanonical, resolveCanonical, resolveCanonical, hparent, hchild]
  rfl

variable {w : World} {e : Naming.Entries} {parent child : String}

theorem World.renamedBy_table (slashed : w.Slashed)
    (injOn : Set.InjOn (Table.ofEntries e).runtimeClass (w.involved parent child))
    (root : (Table.ofEntries e).runtimeClass rootClass = rootClass) :
    w.RenamedBy (Table.ofEntries e).runtimeClass (w.involved parent child) where
  mem _ hn := .inl hn
  root := ⟨.inr (.inl rfl), root⟩
  injOn := injOn
  spelling n hn := by
    have hspelled : Names.internal n = n := by
      rcases hn with hn | rfl | rfl | rfl
      · exact slashed n hn
      · decide +kernel
      · exact Names.internal_internal parent
      · exact Names.internal_internal child
    rw [hspelled]
    exact ⟨hn, Table.internal_runtimeClass e hspelled⟩

/-- A name is brought into its spelling with slashes before it is looked up, after it was, and when the class is asked for. It
is the same each time. -/
theorem World.RenamedBy.asked {f : String → String} {names : Set String} (h : w.RenamedBy f names) {name : String}
    (hname : Names.internal name ∈ names) :
    Names.internal (Names.internal (f (Names.internal name))) = f (Names.internal (Names.internal name)) := by
  have hspelling := (h.spelling _ hname).2
  rw [Names.internal_internal] at hspelling ⊢
  rw [Names.internal_internal, hspelling]

/-- **Assignability under a table.** Let a table keep apart the names of a world and of a question, and leave the root its
name. Then the question has the same answer among the runtime names as among the canonical ones, and the same error about the
class that bears the runtime name. -/
theorem isAssignableCanonical_renamed (slashed : w.Slashed)
    (injOn : Set.InjOn (Table.ofEntries e).runtimeClass (w.involved parent child))
    (root : (Table.ofEntries e).runtimeClass rootClass = rootClass)
    (s : Serving w) (s' : Serving (w.renamed (Table.ofEntries e).runtimeClass)) (oracle : Naming.Oracle)
    (maxDepth : Nat) :
    (s'.resolver ⟨.obfuscated, (Table.ofEntries e).oracle⟩).isAssignableCanonical maxDepth parent child =
        ((s.resolver ⟨.canonical, oracle⟩).isAssignableCanonical maxDepth parent child).mapError
          (Error.renamed (Table.ofEntries e).runtimeClass) ∧
      ∀ error, (s.resolver ⟨.canonical, oracle⟩).isAssignableCanonical maxDepth parent child = .error error →
        error.OfWalk := by
  have hrenamed := World.renamedBy_table slashed injOn root
  have hr := s.serves ⟨.canonical, oracle⟩
  have hr' := s'.serves ⟨.obfuscated, (Table.ofEntries e).oracle⟩
  have hparent : Names.internal parent ∈ w.involved parent child := .inr (.inr (.inl rfl))
  have hchild : Names.internal child ∈ w.involved parent child := .inr (.inr (.inr rfl))
  rw [Resolver.isAssignableCanonical_eq (r := s.resolver _) rfl rfl,
    Resolver.isAssignableCanonical_eq (r := s'.resolver _) rfl rfl]
  refine ⟨Resolver.isAssignable_renamed hrenamed hr hr' maxDepth ?_ (hrenamed.asked hparent) ?_
    (hrenamed.asked hchild), ?_⟩
  · rwa [Names.internal_internal]
  · rwa [Names.internal_internal]
  intro error herror
  exact hr.ofWalk_of_isAssignable herror

/-- Two classes take the names of each other. -/
def sampleEntries : Naming.Entries :=
  ⟨.ofList [("a/B", "a/C"), ("a/C", "a/B")], [], []⟩

theorem runtimeClass_sampleEntries : (Table.ofEntries sampleEntries).runtimeClass =
    fun n => if n = "a/C" then "a/B" else if n = "a/B" then "a/C" else n := by
  have hclasses : sampleEntries.classes.toList.reverse = [("a/C", "a/B"), ("a/B", "a/C")] := by decide
  have hb : Names.internal "a/B" = "a/B" := by decide +kernel
  have hc : Names.internal "a/C" = "a/C" := by decide +kernel
  funext n
  rw [Table.runtimeClass_ofEntries, Naming.Entries.runtimeClass, hclasses, List.find?_cons, List.find?_cons,
    List.find?_nil, hb, hc]
  by_cases hnc : n = "a/C"
  · rw [hnc]
    exact hb
  by_cases hnb : n = "a/B"
  · rw [hnb]
    exact hc
  rw [beq_false_of_ne (Ne.symm hnc), beq_false_of_ne (Ne.symm hnb), if_neg hnc, if_neg hnb]
  rfl

theorem isAssignableCanonical_renamed_swapped :
    ∃ (s : Serving sampleWorld)
      (s' : Serving (sampleWorld.renamed (Table.ofEntries sampleEntries).runtimeClass)),
      (s'.resolver ⟨.obfuscated, (Table.ofEntries sampleEntries).oracle⟩).isAssignableCanonical 2 "a.I" "a.C" =
        ((s.resolver .identity).isAssignableCanonical 2 "a.I" "a.C").mapError
          (Error.renamed (Table.ofEntries sampleEntries).runtimeClass) := by
  have slashed : sampleWorld.Slashed := by
    unfold World.Slashed
    decide +kernel
  have hinvolutive : Function.Involutive (Table.ofEntries sampleEntries).runtimeClass := by
    rw [runtimeClass_sampleEntries]
    intro n
    by_cases hnc : n = "a/C"
    · rw [hnc]
      decide
    by_cases hnb : n = "a/B"
    · rw [hnb]
      decide
    simp [hnc, hnb]
  have root : (Table.ofEntries sampleEntries).runtimeClass rootClass = rootClass := by
    rw [runtimeClass_sampleEntries]
    decide
  obtain ⟨s, -, -⟩ := World.exists_serving (w := sampleWorld) (by decide) (fun _ => true)
    (fun d hd _ => by revert d; decide) (fun _ _ h => nomatch h)
  obtain ⟨s', -, -⟩ := World.exists_serving
    (w := sampleWorld.renamed (Table.ofEntries sampleEntries).runtimeClass)
    (by rw [runtimeClass_sampleEntries]; decide) (fun _ => true)
    (by rw [runtimeClass_sampleEntries]; decide) (fun _ _ h => nomatch h)
  exact ⟨s, s', (isAssignableCanonical_renamed slashed hinvolutive.injective.injOn root s s' _ 2).1⟩

end ClassFile
