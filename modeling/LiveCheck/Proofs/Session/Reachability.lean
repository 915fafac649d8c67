import LiveCheck.Session.Graph
import Mathlib.Logic.Relation

/-!
# Walks through the graph of imports

A walk begins with some files and goes on along the edges, in one direction. Its fuel is the number of
these files and of all edges, which suffices: every step takes one file from the stack, and what comes
next to a file is put on the stack only once. So a walk ends with an empty stack, and then it has
reached exactly the files that a path leads to.
-/

namespace LiveCheck.ImportGraph

/-! ## Edges that are open -/

private def openEdges (reached : FileSet) (entry : FileId × FileSet) : Nat :=
  if entry.1 ∈ reached then 0 else entry.2.size

private def allOpenEdges : List (FileId × FileSet) → FileSet → Nat
  | [], _ => 0
  | entry :: entries, reached => openEdges reached entry + allOpenEdges entries reached

variable {entries : List (FileId × FileSet)} {reached : FileSet} {file : FileId} {files : FileSet}

private theorem allOpenEdges_cons (entry : FileId × FileSet) :
    allOpenEdges (entry :: entries) reached =
      openEdges reached entry + allOpenEdges entries reached := rfl

private theorem openEdges_insert_le (entry : FileId × FileSet) :
    openEdges (reached.insert file) entry ≤ openEdges reached entry := by
  unfold openEdges
  by_cases h : entry.1 ∈ reached
  · simp [h]
  · by_cases hf : file = entry.1
    · simp [hf]
    · simp [h, hf]

private theorem allOpenEdges_insert_le :
    allOpenEdges entries (reached.insert file) ≤ allOpenEdges entries reached := by
  induction entries with
  | nil => exact Nat.le_refl _
  | cons entry entries ih => exact Nat.add_le_add (openEdges_insert_le entry) ih

private theorem allOpenEdges_insert (hmem : (file, files) ∈ entries) (hnew : file ∉ reached) :
    allOpenEdges entries (reached.insert file) + files.size ≤ allOpenEdges entries reached := by
  induction entries with
  | nil => exact nomatch hmem
  | cons entry entries ih =>
    rw [allOpenEdges_cons, allOpenEdges_cons]
    rcases List.mem_cons.mp hmem with rfl | hmem
    · have hle : allOpenEdges entries (reached.insert file) ≤ allOpenEdges entries reached :=
        allOpenEdges_insert_le
      have hclosed : openEdges (reached.insert file) (file, files) = 0 := by simp [openEdges]
      have hopen : openEdges reached (file, files) = files.size := by simp [openEdges, hnew]
      omega
    · have hle : openEdges (reached.insert file) entry ≤ openEdges reached entry :=
        openEdges_insert_le entry
      have := ih hmem
      omega

private theorem edgeCount_eq (edges : Std.TreeMap FileId FileSet) :
    edgeCount edges = allOpenEdges edges.toList ∅ := by
  have hfold (entries : List (FileId × FileSet)) (n : Nat) :
      entries.foldl (fun n entry => n + entry.2.size) n = n + allOpenEdges entries ∅ := by
    induction entries generalizing n with
    | nil => rfl
    | cons entry entries ih =>
      rw [List.foldl_cons, ih, allOpenEdges_cons]
      simp [openEdges, Nat.add_assoc]
  rw [edgeCount, Std.TreeMap.foldl_eq_foldl_toList, hfold, Nat.zero_add]

/-! ## Walks -/

/-- The set of a file in one direction, in ascending order. -/
def nexts (edges : Std.TreeMap FileId FileSet) (file : FileId) : List FileId :=
  (edges[file]?).elim [] (·.toList)

/-- A walk with these files on its stack, which has reached some files before, ends when the stack is
empty, and has then reached the latter files. -/
inductive Walks (next : FileId → List FileId) : List FileId → FileSet → FileSet → Prop
  | done (reached : FileSet) : Walks next [] reached reached
  | again {file : FileId} {stack : List FileId} {reached all : FileSet} (h : file ∈ reached)
    (hrest : Walks next stack reached all) : Walks next (file :: stack) reached all
  | visit {file : FileId} {stack : List FileId} {reached all : FileSet} (h : file ∉ reached)
    (hrest : Walks next (next file ++ stack) (reached.insert file) all) :
    Walks next (file :: stack) reached all

variable {edges : Std.TreeMap FileId FileSet} {next : FileId → List FileId} {fuel : Nat}
  {stack start : List FileId} {all : FileSet}

private theorem length_nexts_le (hnew : file ∉ reached) :
    (nexts edges file).length + allOpenEdges edges.toList (reached.insert file) ≤
      allOpenEdges edges.toList reached := by
  unfold nexts
  cases h : edges[file]? with
  | none =>
    have hle : allOpenEdges edges.toList (reached.insert file) ≤ allOpenEdges edges.toList reached :=
      allOpenEdges_insert_le
    simpa using hle
  | some files =>
    have hmem : (file, files) ∈ edges.toList := Std.TreeMap.mem_toList_iff_getElem?_eq_some.mpr h
    have hle := allOpenEdges_insert hmem hnew
    simp only [Option.elim_some, Std.TreeSet.length_toList]
    omega

private theorem walks_reachUpTo (hfuel : stack.length + allOpenEdges edges.toList reached ≤ fuel) :
    Walks (nexts edges) stack reached (reachUpTo (nexts edges) fuel stack reached) := by
  induction fuel generalizing stack reached with
  | zero =>
    have hnil : stack = [] := List.eq_nil_of_length_eq_zero (by omega)
    subst hnil
    exact .done reached
  | succ fuel ih =>
    cases stack with
    | nil => exact .done reached
    | cons top stack =>
      rw [List.length_cons] at hfuel
      rw [reachUpTo]
      by_cases htop : top ∈ reached
      · rw [if_pos (by simpa using htop)]
        exact .again htop (ih (by omega))
      · rw [if_neg (by simpa using htop)]
        have hle : (nexts edges top).length + allOpenEdges edges.toList (reached.insert top) ≤
            allOpenEdges edges.toList reached := length_nexts_le htop
        exact .visit htop (ih (by rw [List.length_append]; omega))

/-- The fuel of a walk from some files through a whole direction suffices. -/
theorem walks_start (edges : Std.TreeMap FileId FileSet) (start : List FileId) :
    Walks (nexts edges) start ∅
      (reachUpTo (nexts edges) (start.length + edgeCount edges) start ∅) :=
  walks_reachUpTo (Nat.add_le_add_left (Nat.le_of_eq (edgeCount_eq edges).symm) start.length)

private def Closing (next : FileId → List FileId) (stack : List FileId) (reached : FileSet) :
    Prop :=
  ∀ file ∈ reached, ∀ other ∈ next file, other ∈ reached ∨ other ∈ stack

private theorem Walks.closed (h : Walks next stack reached all) (hc : Closing next stack reached) :
    (∀ file, file ∈ reached ∨ file ∈ stack → file ∈ all) ∧
      ∀ file ∈ all, ∀ other ∈ next file, other ∈ all := by
  induction h with
  | done reached =>
    refine ⟨fun file hfile => hfile.resolve_right nofun, fun file hfile other hother => ?_⟩
    exact (hc file hfile other hother).resolve_right nofun
  | @again top stack reached all htop _ ih =>
    have hmem {file : FileId} (h : file ∈ reached ∨ file ∈ top :: stack) :
        file ∈ reached ∨ file ∈ stack := by
      rcases h with h | h
      · exact .inl h
      · rcases List.mem_cons.mp h with rfl | h
        · exact .inl htop
        · exact .inr h
    obtain ⟨hall, hnext⟩ := ih fun file hfile other hother => hmem (hc file hfile other hother)
    exact ⟨fun file hfile => hall file (hmem hfile), hnext⟩
  | @visit top stack reached all _ _ ih =>
    have hmem {file : FileId} (h : file ∈ reached ∨ file ∈ top :: stack) :
        file ∈ reached.insert top ∨ file ∈ next top ++ stack := by
      rcases h with h | h
      · exact .inl (by simp [h])
      · rcases List.mem_cons.mp h with rfl | h
        · exact .inl (by simp)
        · exact .inr (List.mem_append_right _ h)
    obtain ⟨hall, hnext⟩ := ih fun file hfile other hother => by
      rcases Std.TreeSet.mem_insert.mp hfile with heq | hfile
      · rw [Std.LawfulEqCmp.compare_eq_iff_eq] at heq
        exact .inr (List.mem_append_left _ (heq ▸ hother))
      · exact hmem (hc file hfile other hother)
    exact ⟨fun file hfile => hall file (hmem hfile), hnext⟩

private theorem Walks.path (h : Walks next stack reached all) (hfile : file ∈ all) :
    file ∈ reached ∨
      ∃ first ∈ stack, Relation.ReflTransGen (fun f g => g ∈ next f) first file := by
  induction h with
  | done reached => exact .inl hfile
  | again _ _ ih =>
    exact (ih hfile).imp_right fun ⟨first, hfirst, hpath⟩ =>
      ⟨first, List.mem_cons_of_mem _ hfirst, hpath⟩
  | @visit top stack reached all _ _ ih =>
    rcases ih hfile with hreached | ⟨first, hfirst, hpath⟩
    · rcases Std.TreeSet.mem_insert.mp hreached with heq | hreached
      · rw [Std.LawfulEqCmp.compare_eq_iff_eq] at heq
        exact .inr ⟨top, List.mem_cons_self, heq ▸ .refl⟩
      · exact .inl hreached
    · rcases List.mem_append.mp hfirst with hnext | hfirst
      · exact .inr ⟨top, List.mem_cons_self, .head hnext hpath⟩
      · exact .inr ⟨first, List.mem_cons_of_mem _ hfirst, hpath⟩

/-- A walk from some files reaches exactly the files that a path from one of them leads to. -/
theorem Walks.mem_iff (h : Walks next start ∅ all) :
    file ∈ all ↔ ∃ first ∈ start, Relation.ReflTransGen (fun f g => g ∈ next f) first file := by
  constructor
  · exact fun hfile => (h.path hfile).resolve_left (by simp)
  · rintro ⟨first, hfirst, hpath⟩
    obtain ⟨hall, hnext⟩ := h.closed fun file hfile => absurd hfile (by simp)
    induction hpath with
    | refl => exact hall first (.inr hfirst)
    | tail _ hedge ih => exact hnext _ ih _ hedge

/-! ## What a graph reaches -/

variable (g : ImportGraph)

theorem walks_reachable (start : List FileId) : Walks g.imports start ∅ (g.reachable start) :=
  walks_start g.dependencies start

/-- The files that a walk begins with are among those that it reaches. -/
theorem mem_reachable (h : file ∈ start) : file ∈ g.reachable start :=
  (g.walks_reachable start).mem_iff.mpr ⟨file, h, .refl⟩

end LiveCheck.ImportGraph
