import LiveCheck.Proofs.Session.Demand
import LiveCheck.Proofs.Session.Invariants

/-!
# Changes that stay local

A flush that does not make all that is known void looks again at the units that changed, at those from
which imports lead to them, and binds what these take all names from. All other units are left as
they were; at most their results move to the new generation.
-/

namespace LiveCheck.Session

variable {s t : Session} {file : FileId}

/-! ## Going through the changed units -/

private theorem bindCount_modifyUnit {f : SourceUnit → SourceUnit}
    (hf : ∀ u, (f u).stats.binds = u.stats.binds) (other : FileId) :
    (s.modifyUnit file f).bindCount other = s.bindCount other := by
  rw [bindCount, bindCount, unit?_modifyUnit]
  split
  · cases s.unit? other with
    | none => rfl
    | some u => exact hf u
  · rfl

private theorem bindCount_parseUnit (content : String) (other : FileId) :
    (s.parseUnit file content).bindCount other = s.bindCount other := by
  cases hu : s.unit? file with
  | none => simp [parseUnit, hu]
  | some u =>
    rw [parseUnit_eq hu]
    exact bindCount_modifyUnit (s := s) (f := (·.parsed content (Text.fingerprint content)))
      (fun _ => rfl) other

private theorem reparse_dependents {scope : InvalidationScope} {files : List FileId}
    (h : (reparse scope s files).2.1 = .dependents) :
    (∀ file, (reparse scope s files).2.2.bindCount file = s.bindCount file) ∧
      ∀ entry ∈ (reparse scope s files).1, entry.1 ∈ files := by
  induction files generalizing scope s with
  | nil => exact ⟨fun _ => rfl, List.forall_mem_nil _⟩
  | cons first files ih =>
    have hlater {list : List Reparsed} (hlist : ∀ entry ∈ list, entry.1 ∈ files) :
        ∀ entry ∈ list, entry.1 ∈ first :: files :=
      fun entry he => List.mem_cons_of_mem first (hlist entry he)
    rw [reparse] at h ⊢
    split at h
    · exact (ih h).imp_right hlater
    · next u hu =>
      split at h
      · rw [scope_reparse_full] at h
        cases h
      · next content hc =>
        split at h
        · next hsame =>
          obtain ⟨hcount, hlist⟩ := ih h
          rw [if_pos hsame]
          refine ⟨fun file => (hcount file).trans ?_, hlater hlist⟩
          exact bindCount_modifyUnit (f := SourceUnit.restored) (fun _ => rfl) file
        · next hnew =>
          obtain ⟨hcount, hlist⟩ := ih h
          rw [if_neg hnew]
          refine ⟨fun file => (hcount file).trans (bindCount_parseUnit content file), ?_⟩
          exact List.forall_mem_cons.mpr ⟨List.mem_cons_self, hlater hlist⟩

/-! ## Binding what was parsed again -/

private theorem demands_bindIfParsed (hs : s.Tidy) (hidle : s.inProgress = []) (file : FileId) :
    s.Demands (if (s.unit? file).any (·.state == .parsed) then s.bindParsed file else s)
      (· = file) := by
  split
  · next hp =>
    obtain ⟨u, hu, hstate⟩ := (Option.any_eq_true _ _).mp hp
    have hstate : u.state = .parsed := by simpa using hstate
    refine demands_bindUnit demandsOnly_ensureBound hs (by simp [hidle]) ?_ hu
      ((hs file u hu).blank hstate)
    exact not_isBound_of_state (by rw [hu, Option.map_some, hstate]) rfl
  · exact .refl s _

private theorem demands_rebind (scope : InvalidationScope) (hs : s.Tidy) (hidle : s.inProgress = [])
    (list : List Reparsed) : s.Demands (rebind scope s list).2.2 (· ∈ list.map (·.1)) := by
  induction list generalizing scope s with
  | nil => exact .refl s _
  | cons entry rest ih =>
    obtain ⟨file, before⟩ := entry
    have hfirst := demands_bindIfParsed hs hidle file
    have htidy := (completes_bindIfParsed hs hidle file).1
    have hrest (scope : InvalidationScope) :=
      ih scope htidy (hfirst.furthers.inProgress.trans hidle)
    refine (hfirst.imp ?_).trans ((hrest _).imp ?_)
    · rintro _ rfl
      exact List.mem_cons_self
    · exact fun _ h => List.mem_cons_of_mem _ h

private theorem mem_affected_rebind {scope : InvalidationScope} {list : List Reparsed}
    (h : file ∈ (rebind scope s list).1) :
    ∃ n, ∃ hn : n < list.length,
      file ∈ (rebind scope s (list.take (n + 1))).2.2.graph.affected list[n].1 := by
  induction list generalizing scope s with
  | nil => exact nomatch h
  | cons entry rest ih =>
    obtain ⟨first, before⟩ := entry
    simp only [rebind, List.mem_append] at h
    rcases h with h | h
    · exact ⟨0, Nat.zero_lt_succ _, h⟩
    · obtain ⟨n, hn, h⟩ := ih h
      exact ⟨n + 1, Nat.succ_lt_succ hn, h⟩

/-- The session in which the first units that were parsed again have been dealt with. -/
def reboundUpTo (s : Session) (n : Nat) : Session :=
  (rebind s.reparsed.2.1 s.reparsed.2.2 (s.reparsed.1.take n)).2.2

/-- One or more imports lead from a unit to one that was parsed again, in the graph as it is when that
one has just been dealt with. -/
def DependsOnReparsed (s : Session) (file : FileId) : Prop :=
  ∃ n, ∃ hn : n < s.reparsed.1.length,
    Relation.TransGen (s.reboundUpTo (n + 1)).graph.Imports file s.reparsed.1[n].1

private theorem dependsOnReparsed_of_mem (ht : s.Tidy) (hg : s.graph.Mirrored)
    (h : file ∈ s.rebound.1) : s.DependsOnReparsed file := by
  obtain ⟨n, hn, h⟩ := mem_affected_rebind h
  have htidy : s.reparsed.2.2.Tidy := (reparses_reparsed s).tidy ht
  have hreparsed : s.reparsed.2.2.graph.Mirrored :=
    invariant_mirrored.reparses (reparses_reparsed s) hg
  have hgraph : (s.reboundUpTo (n + 1)).graph.Mirrored :=
    (binds_rebind _ htidy _).induct (fun _ _ hstep => hstep.mirrored) hreparsed
  exact ⟨n, hn, (hgraph.mem_affected.mp h).2⟩

/-! ## How a flush ends -/

private theorem FlushEnd.bindCount (h : FlushEnd s t) (file : FileId) :
    t.bindCount file = s.bindCount file := by
  cases hu : s.unit? file with
  | none => rw [Session.bindCount, Session.bindCount, hu, h.unit?_of_none hu]
  | some u =>
    obtain ⟨v, hv, -⟩ := h.unit?_of_some hu
    obtain ⟨w, hw, hrest⟩ := h.unit?_rest hv
    obtain rfl := Option.some.inj (hw.symm.trans hu)
    rw [bindCount_eq hv, bindCount_eq hu, hrest]

private theorem FlushEnd.takesNames {target : FileId} (h : FlushEnd s t)
    (ht : s.TakesNames file target) :
    t.TakesNames file target := by
  obtain ⟨u, b, hu, hb, record, hrecord, hwildcard, w, hw, hlookup⟩ := ht
  obtain rfl := Option.some.inj (hu.symm.trans hw)
  obtain ⟨v, hv, -⟩ := h.unit?_of_some hu
  obtain ⟨w, hw, hrest⟩ := h.unit?_rest hv
  obtain rfl := Option.some.inj (hw.symm.trans hu)
  refine ⟨v, b, hv, by rw [hrest, hb], record, hrecord, hwildcard, v, hv, ?_⟩
  rw [hrest]
  exact hlookup

private theorem scope_rebound (hs : s.Tidy) (hp : s.hasPendingChanges = true)
    (hlocal : s.flush.counters.fullInvalidations = s.counters.fullInvalidations) :
    s.rebound.2.1 = .dependents ∧ s.reparsed.2.1 = .dependents := by
  have hrebound : s.rebound.2.1 = .dependents := by
    cases hscope : s.rebound.2.1 with
    | dependents => rfl
    | full =>
      have hbefore : s.rebound.2.2.counters.fullInvalidations = s.counters.fullInvalidations := by
        rw [(binds_rebound hs).rest, (reparses_reparsed s).rest]
      have hflush : s.flush =
          s.rebound.2.2.nextGeneration.invalidateAll (s.reparsed.1.map (·.1)) := by
        rw [flush_eq hp, hscope]
        simp
      rw [hflush, counters_invalidateAll] at hlocal
      have hone : s.rebound.2.2.counters.fullInvalidations + 1 = s.counters.fullInvalidations :=
        hlocal
      omega
  refine ⟨hrebound, ?_⟩
  cases hscope : s.reparsed.2.1 with
  | dependents => rfl
  | full =>
    rw [rebound, hscope, scope_rebind_full] at hrebound
    cases hrebound

/-- A unit is bound in the course of a flush because names are taken from it. -/
def BoundOnDemand (s : Session) (file : FileId) : Prop :=
  s.BoundIn s.flush file ∧ s.TakenIn s.flush file

private theorem boundOnDemand_of_rebound (hp : s.hasPendingChanges = true)
    (hscope : s.reparsed.2.1 = .dependents) (hb : s.reparsed.2.2.BoundIn s.rebound.2.2 file)
    (ht : s.reparsed.2.2.TakenIn s.rebound.2.2 file) : s.BoundOnDemand file := by
  have hend := flushEnd_rebound hp
  have hbound {other : FileId} (h : s.reparsed.2.2.BoundIn s.rebound.2.2 other) :
      s.BoundIn s.flush other := by
    have hcount : s.reparsed.2.2.bindCount other = s.bindCount other :=
      (reparse_dependents hscope).1 other
    rw [BoundIn, hend.bindCount, ← hcount]
    exact h
  obtain ⟨importer, himporter, htakes⟩ := ht
  exact ⟨hbound hb, importer, hbound himporter, hend.takesNames htakes⟩

private theorem unit?_rebound (hs : s.Maintained) (hp : s.hasPendingChanges = true)
    (hscope : s.reparsed.2.1 = .dependents) {u : SourceUnit} (hu : s.unit? file = some u)
    (hclean : file ∉ s.dirty) (hdemand : ¬ s.BoundOnDemand file) :
    s.rebound.2.2.unit? file = some u := by
  have hrep := reparses_reparsed s
  have htidy : s.reparsed.2.2.Tidy := hrep.tidy hs.orderly.1
  have hidle : s.reparsed.2.2.inProgress = [] := by
    rw [hrep.rest]
    exact hs.idle
  have hsame : s.reparsed.2.2.unit? file = some u := (hrep.unit?_of_not_mem hclean).trans hu
  refine ((demands_rebind _ htidy hidle s.reparsed.1).unit file u hsame).resolve_right ?_
  rintro ⟨hbound, hlisted | htaken⟩
  · obtain ⟨entry, hentry, rfl⟩ := List.mem_map.mp hlisted
    exact hclean ((reparse_dependents hscope).2 entry hentry)
  · exact hdemand (boundOnDemand_of_rebound hp hscope hbound htaken)

/-- **A change that stays local leaves unrelated units alone.** If a flush does not make all that is
known void, then every unit that has not changed, from which no imports lead to a unit that was
parsed again, and which is not bound because names are taken from it keeps all that it holds; at most
the generation of its results changes. -/
theorem flush_leaves_unrelated (hs : s.Reached)
    (hlocal : s.flush.counters.fullInvalidations = s.counters.fullInvalidations) {u : SourceUnit}
    (hu : s.unit? file = some u) (hclean : file ∉ s.dirty) (hdepends : ¬ s.DependsOnReparsed file)
    (hdemand : ¬ s.BoundOnDemand file) :
    ∃ generation, s.flush.unit? file = some { u with analysis := u.analysis.restamp generation } := by
  have hm := hs.maintained
  cases hp : s.hasPendingChanges with
  | false => exact ⟨u.analysis.stamp, by rw [flush_of_not_pending hp, hu]; rfl⟩
  | true =>
    obtain ⟨hrebound, hreparsed⟩ := scope_rebound hm.orderly.1 hp hlocal
    have hsame := unit?_rebound hm hp hreparsed hu hclean hdemand
    have hother : file ∉ s.rebound.1 := fun h =>
      hdepends (dependsOnReparsed_of_mem hm.orderly.1 (invariant_mirrored.reached hs) h)
    rw [flush_eq hp, hrebound]
    split
    · exact ⟨u.analysis.stamp, hsame⟩
    · have hmoved (generation : Nat) : ∃ generation', restampUnit generation u =
          { u with analysis := u.analysis.restamp generation' } := by
        unfold restampUnit
        split
        · exact ⟨generation, rfl⟩
        · exact ⟨u.analysis.stamp, rfl⟩
      have hunit : s.rebound.2.2.nextGeneration.unit? file = some u := hsame
      obtain ⟨generation, hgeneration⟩ := hmoved s.rebound.2.2.nextGeneration.generation
      refine ⟨generation, ?_⟩
      rw [if_neg (by decide), unit?_invalidateDependents, if_neg fun h => hother h.1, hunit,
        Option.map_some, hgeneration]

/-- A file that was checked and imports nothing, while another one changes and a third one imports
that. -/
theorem flush_leaves_unimported :
    let files := FileStore.ofList
      [("a.py", "x = 1\n"), ("b.py", "from a import x\n"), ("c.py", "y = 's'\n")]
    let s := (Session.new {} files []).after [.setRoots ["a.py", "b.py", "c.py"],
      .ask (.checkProgram false), .update "a.py" "x = 2\n"]
    s.flush.counters.localInvalidations = s.counters.localInvalidations + 1 ∧
      s.flush.counters.fullInvalidations = s.counters.fullInvalidations ∧
      (s.unit? 2).map (·.state) = some (.evaluated true) ∧ 2 ∉ s.dirty ∧
      ¬ s.DependsOnReparsed 2 ∧ ¬ s.BoundOnDemand 2 ∧ s.rebound.1 = [1] ∧
      ∃ u generation, s.unit? 2 = some u ∧
        s.flush.unit? 2 = some { u with analysis := u.analysis.restamp generation } := by
  intro files s
  have hrun : s.flush.counters.localInvalidations = s.counters.localInvalidations + 1 ∧
      s.flush.counters.fullInvalidations = s.counters.fullInvalidations ∧
      (s.unit? 2).map (·.state) = some (.evaluated true) ∧ 2 ∉ s.dirty ∧
      s.reparsed.1.length = 1 ∧ (s.reboundUpTo 1).graph.imports 2 = [] ∧
      s.flush.bindCount 2 = s.bindCount 2 ∧ s.rebound.1 = [1] := by
    decide +kernel
  obtain ⟨hmoved, hlocal, hstate, hclean, hone, himports, hbinds, haffected⟩ := hrun
  have hdepends : ¬ s.DependsOnReparsed 2 := by
    rintro ⟨n, hn, hpath⟩
    obtain rfl : n = 0 := by omega
    obtain ⟨other, hother, -⟩ := Relation.TransGen.head'_iff.mp hpath
    rw [ImportGraph.Imports, himports] at hother
    exact nomatch hother
  have hdemand : ¬ s.BoundOnDemand 2 := fun h => Nat.ne_of_gt h.1 hbinds
  obtain ⟨u, hu, -⟩ := Option.map_eq_some_iff.mp hstate
  have hs : s.Reached := ⟨{}, files, [], _, rfl⟩
  obtain ⟨generation, hkept⟩ := flush_leaves_unrelated hs hlocal hu hclean hdepends hdemand
  exact ⟨hmoved, hlocal, hstate, hclean, hdepends, hdemand, haffected, u, generation, hu, hkept⟩

end LiveCheck.Session
