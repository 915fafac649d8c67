import LiveCheck.Proofs.Reparsing
import LiveCheck.Proofs.RepeatedQuestions

/-!
# Garbage

Collecting garbage takes units away that neither the roots nor the opened files are known to reach.
The units that are kept stay as they are, with all that is known about them, so an answer that was
given on one of them is given again afterwards, and the problems that were found in it are found
again, whatever is asked before and behind the collection.

What is reached is read from the edges that binding has found. A root that was not bound yet reaches
nothing, and a file that it imports is taken away together with the content that it was given: the
first answer about the root is then another one.
-/

namespace LiveCheck.Session

open Evaluation

variable {s t : Session} {file : FileId} {u : SourceUnit}

/-! ## What a collection leaves alone -/

/-- The files that a collection keeps. -/
def kept (s : Session) : FileSet := s.graph.reachable (s.roots ++ s.openFiles)

private theorem mem_kept (h : file ∈ s.roots ++ s.openFiles) :
    file ∈ s.kept := s.graph.mem_reachable h

private theorem unit?_collectGarbage (h : file ∈ s.kept) :
    s.collectGarbage.2.unit? file = s.unit? file := by
  have hkept : file ∉ s.ids.filter (!s.kept.contains ·) := by simp [h]
  exact (unit?_dropUnits s _ file).trans (if_neg hkept)

private theorem unit?_of_collectGarbage (h : s.collectGarbage.2.unit? file = some u) :
    s.unit? file = some u := by
  have hunit := unit?_dropUnits s (s.ids.filter (!s.kept.contains ·)) file
  change s.collectGarbage.2.unit? file = _ at hunit
  rw [h] at hunit
  by_cases hgone : file ∈ s.ids.filter (!s.kept.contains ·)
  · rw [if_pos hgone] at hunit
    exact nomatch hunit
  · rw [if_neg hgone] at hunit
    exact hunit.symm

private theorem dropUnits_eq (s : Session) (gone : List FileId) :
    ∃ units paths dirty graph, gone.foldl dropUnit s =
      { s with units := units, paths := paths, dirty := dirty, graph := graph } := by
  induction gone generalizing s with
  | nil => exact ⟨s.units, s.paths, s.dirty, s.graph, rfl⟩
  | cons other gone ih =>
    obtain ⟨units, paths, dirty, graph, h⟩ := ih (s.dropUnit other)
    refine ⟨units, paths, dirty, graph, ?_⟩
    rw [List.foldl_cons, h, rest_dropUnit]

private theorem rest_collectGarbage (s : Session) :
    s.collectGarbage.2 =
      { s with
        units := s.collectGarbage.2.units
        paths := s.collectGarbage.2.paths
        dirty := s.collectGarbage.2.dirty
        graph := s.collectGarbage.2.graph } := by
  obtain ⟨units, paths, dirty, graph, h⟩ := dropUnits_eq s (s.ids.filter (!s.kept.contains ·))
  change s.collectGarbage.2 = _ at h
  rw [h]

private theorem recalls_collectGarbage (h : file ∈ s.kept) : s.Recalls file s.collectGarbage.2 where
  bound u hu hb := ⟨u, (unit?_collectGarbage h).trans hu, hb, rfl, rfl⟩
  knows key type := by
    rintro rfl ⟨u, node, ⟨hu, hb, hstamp⟩, hnode, htype⟩
    refine ⟨u, node, ⟨(unit?_collectGarbage h).trans hu, hb, ?_⟩, hnode, htype⟩
    rw [rest_collectGarbage]
    exact hstamp
  reports u hopened hstate hknown := by
    refine ⟨u, ⟨(unit?_collectGarbage h).trans hopened.1, hopened.2.1, ?_⟩, hstate, hknown, .refl _⟩
    rw [rest_collectGarbage]
    exact hopened.2.2
  types := by
    rw [rest_collectGarbage]
    exact .refl s.types

private theorem Calm.collectGarbage (hs : s.Calm) : s.collectGarbage.2.Calm where
  coherent := by
    refine ⟨fun file u hu => hs.coherent.tidy file u (unit?_of_collectGarbage hu), ?_, ?_⟩
    · rw [rest_collectGarbage]
      exact hs.coherent.closed
    · intro file u node slot type hu hstamp htype
      rw [rest_collectGarbage] at hstamp ⊢
      exact hs.coherent.readable file u node slot type (unit?_of_collectGarbage hu) hstamp htype
  idle := by
    rw [rest_collectGarbage]
    exact hs.idle
  settled := by
    have hsettled := hs.settled
    rw [hasPendingChanges, Bool.or_eq_false_iff, Bool.not_eq_false', List.isEmpty_iff] at hsettled
    have hdirty : s.collectGarbage.2.dirty = [] := by
      refine List.eq_nil_iff_forall_not_mem.mpr fun file hfile => ?_
      have hmem : file ∈ s.dirty := mem_dirty_dropUnits hfile
      rw [hsettled.2] at hmem
      exact List.not_mem_nil hmem
    rw [hasPendingChanges, hdirty, rest_collectGarbage, hsettled.1]
    rfl

/-! ## Asking behind a collection -/

/-- In every run whose flushes were steady and left nothing to do: if the type of a symbol was found
within the limit of the stack, and garbage is collected any number of questions later, then the file
keeps this answer if it is a root, is opened or is reached by one of them, whatever is asked behind
the collection. -/
theorem typeOfSymbol_behind_collection (options : Options) (files : FileStore)
    (hostPaths : List String) (ops : List Operation) (file : FileId) (name : String)
    (questions more : List Question) {answer : Option TypeId} :
    let start := Session.new options files hostPaths
    let s := start.after ops
    let t := (s.flush.ensureBound file).2
    let full := questions.foldl asked (s.asked (.typeOfSymbol file name))
    let later := more.foldl asked full.collectGarbage.2
    (Era.start start).Steady ops → s.Steady ((Era.start start).after ops).since →
      s.flush.hasPendingChanges = false →
      (∀ symbol ∈ t.symbol? file name, ((Inquiry.ofSymbol file symbol).outcome t).WithinLimit) →
      ((Query.typeOfSymbol file name).run s).1 = .ok answer → file ∈ full.kept →
        ((Query.typeOfSymbol file name).run later).1 = .ok answer ∧
          later.textOfSymbol file name = s.textOfSymbol file name := by
  intro start s t full later hsteady hnext hsettled hw hanswer hkept
  have hflush := calm_flush options files hostPaths ops hsteady hnext hsettled
  obtain ⟨ht, hbound, hrun, hfirst⟩ := Calm.answered (s := s) hflush hanswer
  have hfull : full = questions.foldl asked (t.symbolAnswer file name).2 :=
    congrArg (fun r => questions.foldl asked r.2) hrun
  obtain ⟨hcalm, hknown⟩ := hfirst.asked questions
  rw [← hfull] at hcalm hknown
  obtain ⟨hcalm', hknown'⟩ := hcalm.collectGarbage.asked more
  have hlater : (t.symbolAnswer file name).2.Recalls file later :=
    ((hknown file).trans (recalls_collectGarbage hkept)).trans (hknown' file)
  rw [hrun] at hanswer
  obtain ⟨hsame, htext⟩ := typeOfSymbol_recalled ht hbound hw hanswer hcalm' hlater
  refine ⟨hsame, htext.trans ?_⟩
  simp only [textOfSymbol, hrun, hanswer]
  rfl

/-- In every such run: all problems that were found in a file are found again behind a collection that
keeps the file, if the type at some node of the file is known by then. -/
theorem diagnostics_behind_collection (options : Options) (files : FileStore)
    (hostPaths : List String) (ops : List Operation) (file : FileId)
    (questions more : List Question) {found : List Diagnostic} :
    let start := Session.new options files hostPaths
    let s := start.after ops
    let t := s.asked (.diagnostics file)
    let full := questions.foldl asked t
    let later := more.foldl asked full.collectGarbage.2
    (Era.start start).Steady ops → s.Steady ((Era.start start).after ops).since →
      s.flush.hasPendingChanges = false → ((Query.diagnostics file).run s).1 = .ok found →
      (∃ key type, key.file = file ∧ t.Knows key type) → file ∈ full.kept →
        ∃ again, ((Query.diagnostics file).run later).1 = .ok again ∧ found.Subperm again := by
  intro start s t full later hsteady hnext hsettled hfound hknown hkept
  have hflush := calm_flush options files hostPaths ops hsteady hnext hsettled
  obtain ⟨hcalm, hrecalls⟩ := (Calm.askedDiagnostics (s := s) hflush file).asked questions
  obtain ⟨hcalm', hrecalls'⟩ := hcalm.collectGarbage.asked more
  exact Recalls.diagnostics (s := s) hflush hfound hknown hcalm'
    (((hrecalls file).trans (recalls_collectGarbage hkept)).trans (hrecalls' file))

/-- A root that was bound keeps the file that it imports, with the content that this one was given,
while another file goes away. -/
theorem typeOfSymbol_behind_collection_of_import :
    let files := FileStore.ofList [("a.py", "from b import x\n"), ("b.py", "x = 1\n")]
    let start := Session.new {} files []
    let ops : List Operation := [.setRoots ["a.py"], .update "b.py" "x = 's'\n", .update "c.py" ""]
    let s := start.after ops
    let t := (s.flush.ensureBound 0).2
    let full := [.diagnostics 2].foldl asked (s.asked (.typeOfSymbol 0 "x"))
    let later := [.diagnostics 0].foldl asked full.collectGarbage.2
    (Era.start start).Steady ops ∧ s.Steady ((Era.start start).after ops).since ∧
      s.flush.hasPendingChanges = false ∧
      (∀ symbol ∈ t.symbol? 0 "x", ((Inquiry.ofSymbol 0 symbol).outcome t).WithinLimit) ∧
      ((Query.typeOfSymbol 0 "x").run s).1 = .ok (some .str) ∧
      full.roots = [0] ∧ full.collectGarbage.1 = 1 ∧
      ((Query.typeOfSymbol 0 "x").run later).1 = .ok (some .str) ∧
        later.textOfSymbol 0 "x" = s.textOfSymbol 0 "x" := by
  intro files start ops s t
  have hrun : (Era.start start).Steady ops ∧ s.Steady ((Era.start start).after ops).since ∧
      s.flush.hasPendingChanges = false ∧
      (∀ symbol ∈ t.symbol? 0 "x", ((Inquiry.ofSymbol 0 symbol).outcome t).WithinLimit) ∧
      ((Query.typeOfSymbol 0 "x").run s).1 = .ok (some .str) ∧
      ([.diagnostics 2].foldl asked (s.asked (.typeOfSymbol 0 "x"))).roots = [0] ∧
      ([.diagnostics 2].foldl asked (s.asked (.typeOfSymbol 0 "x"))).collectGarbage.1 = 1 := by
    decide +kernel
  obtain ⟨hsteady, hnext, hsettled, hwithin, hanswer, hroots, hgone⟩ := hrun
  have hkept : 0 ∈ ([.diagnostics 2].foldl asked (s.asked (.typeOfSymbol 0 "x"))).kept :=
    mem_kept (by rw [hroots]; exact List.mem_cons_self)
  exact ⟨hsteady, hnext, hsettled, hwithin, hanswer, hroots, hgone,
    typeOfSymbol_behind_collection {} files [] ops 0 "x" [.diagnostics 2] [.diagnostics 0] hsteady
      hnext hsettled hwithin hanswer hkept⟩

/-- A root that was not bound yet: the file that it imports is taken away, and the first answer
about the root is from the content that this file had before it was given another one. -/
theorem textOfSymbol_ne_behind_collection :
    let files := FileStore.ofList [("a.py", "from b import x\n"), ("b.py", "x = 1\n")]
    let s := (Session.new {} files []).after [.setRoots ["a.py"], .update "b.py" "x = 's'\n"]
    s.roots = [0] ∧ s.textOfSymbol 0 "x" = .ok (some "str") ∧
      s.collectGarbage.2.textOfSymbol 0 "x" = .ok (some "int") := by
  decide +kernel

end LiveCheck.Session
