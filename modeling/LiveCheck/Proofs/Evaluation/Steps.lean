import LiveCheck.Evaluation.Check
import LiveCheck.Proofs.Session.Completion
import LiveCheck.Proofs.Types.Growth

/-!
# What an evaluation does to a session

An evaluation binds units, opens their tables of results, meets new files, links files in the graph
of imports, reports problems, makes types and keeps results. Whatever it does is a sequence of these
steps. Results are kept only for units that are bound, in tables of the current generation.
-/

namespace LiveCheck

open Evaluation

/-! ## Results of a unit -/

/-- A place among the results for a node. -/
inductive Slot
  | expression
  | result
  | declaration (index : DeclIndex)
deriving DecidableEq

/-- The slot in which the result for a key is kept. -/
def EvalKey.slot : EvalKey → Slot
  | .node _ _ => .expression
  | .result _ _ => .result
  | .decl d => .declaration d.index

/-- The type in a slot. -/
def NodeAnalysis.type? (entry : NodeAnalysis) : Slot → Option TypeId
  | .expression => entry.exprType
  | .result => entry.returnType
  | .declaration index => entry.declTypes.lookup index

theorem known?_eq_type? (entry : NodeAnalysis) (key : EvalKey) :
    known? entry key = entry.type? key.slot := by
  cases key <;> rfl

private theorem lookup_setDeclType (index : DeclIndex) (type : TypeId)
    (types : List (DeclIndex × TypeId)) (i : DeclIndex) :
    (setDeclType index type types).lookup i =
      if i = index then some type else types.lookup i := by
  induction types with
  | nil =>
    rw [setDeclType]
    split <;> simp_all
  | cons entry rest ih =>
    obtain ⟨j, t⟩ := entry
    rw [setDeclType]
    split <;> grind

private theorem type?_learn (type : TypeId) (entry : NodeAnalysis) (key : EvalKey) (slot : Slot) :
    (learn type entry key).type? slot =
      if slot = key.slot then some type else entry.type? slot := by
  cases key with
  | node file node => cases slot <;> simp [learn, NodeAnalysis.type?, EvalKey.slot]
  | result file node => cases slot <;> simp [learn, NodeAnalysis.type?, EvalKey.slot]
  | decl decl =>
    cases slot with
    | expression => simp [learn, NodeAnalysis.type?, EvalKey.slot]
    | result => simp [learn, NodeAnalysis.type?, EvalKey.slot]
    | declaration index =>
      simp [learn, NodeAnalysis.type?, EvalKey.slot, lookup_setDeclType]

variable {node : NodeId} {slot : Slot} {type : TypeId}

namespace SourceUnit

/-- The type that is kept in a slot of a node. -/
def typeAt? (u : SourceUnit) (node : NodeId) (slot : Slot) : Option TypeId :=
  (u.analysis.get? node).bind (·.type? slot)

/-- Keeps the result for a key. -/
def learned (u : SourceUnit) (node : NodeId) (key : EvalKey) (type : TypeId) : SourceUnit :=
  { u with analysis := u.analysis.update node (learn type · key) }

variable {u : SourceUnit}

private theorem typeAt?_of_isEmpty (h : u.analysis.isEmpty = true) (node : NodeId) (slot : Slot) :
    u.typeAt? node slot = none := by
  have : u.analysis.get? node = none := Std.TreeMap.getElem?_of_isEmpty h
  rw [typeAt?, this]
  rfl

theorem isEmpty_eq_false_of_typeAt? (h : u.typeAt? node slot = some type) :
    u.analysis.isEmpty = false := by
  cases he : u.analysis.isEmpty with
  | false => rfl
  | true =>
    rw [typeAt?_of_isEmpty he] at h
    exact nomatch h

/-- A new result stands in its own place only. -/
theorem typeAt?_learned (u : SourceUnit) (node other : NodeId) (key : EvalKey) (type : TypeId)
    (slot : Slot) :
    (u.learned node key type).typeAt? other slot =
      if other = node ∧ slot = key.slot then some type else u.typeAt? other slot := by
  have hget : (u.learned node key type).analysis.get? other =
      if node = other then some (learn type ((u.analysis.get? node).getD default) key)
      else u.analysis.get? other := by
    have := Std.TreeMap.getElem?_insert (t := u.analysis.entries) (k := node) (a := other)
      (v := learn type ((u.analysis.get? node).getD default) key)
    simpa [SourceUnit.learned, SideTable.update, SideTable.insert, SideTable.get?] using this
  rw [typeAt?, hget]
  by_cases hn : node = other
  · subst hn
    simp only [if_true, Option.bind_some, type?_learn, true_and]
    split
    · rfl
    · rw [typeAt?]
      cases u.analysis.get? node with
      | none => cases slot <;> rfl
      | some entry => rfl
  · rw [if_neg hn, if_neg fun h => hn h.1.symm]
    rfl

/-! ## Units between two steps -/

theorem analysis_evaluating (u : SourceUnit) (generation : Nat) :
    (u.evaluating generation).analysis = u.analysis ∨
      (u.evaluating generation).analysis = SideTable.empty.restamp generation := by
  simp only [evaluating]
  repeat' split
  all_goals simp

theorem stamp_evaluating (ht : u.tree.isSome = true) (generation : Nat) :
    (u.evaluating generation).analysis.stamp = generation := by
  simp only [evaluating]
  split
  · split
    · rfl
    · next h => simpa [ht] using h
  · split
    · rfl
    · next h => simpa [ht] using h

theorem isBound_evaluating (h : u.state.isBound = true) (generation : Nat) :
    (u.evaluating generation).state.isBound = true := by
  simp only [evaluating]
  repeat' split
  all_goals first | rfl | exact h

/-- To begin an evaluation changes the state and the results only. -/
theorem rest_evaluating (u : SourceUnit) (generation : Nat) :
    u.evaluating generation =
      { u with
        state := (u.evaluating generation).state
        analysis := (u.evaluating generation).analysis
        checkReports := (u.evaluating generation).checkReports } := by
  simp only [evaluating]
  repeat' split
  all_goals rfl

private theorem Tidy.evaluating (h : u.Tidy) (hb : u.state.isBound = true) (generation : Nat) :
    (u.evaluating generation).Tidy := by
  have hbound := isBound_evaluating hb generation
  have hrest := rest_evaluating u generation
  obtain ⟨htree, hbinding⟩ := h.bound hb
  refine ⟨fun _ => ?_, fun hp => ?_, fun hp => ?_, fun hn => ?_⟩
  · rw [hrest]
    exact ⟨htree, hbinding⟩
  · rw [hp] at hbound
    exact nomatch hbound
  · rw [hp] at hbound
    exact nomatch hbound
  · rw [hrest] at hn
    have hn : u.binding = none := hn
    rw [hn] at hbinding
    exact nomatch hbinding

private theorem Tidy.report (h : u.Tidy) (d : Diagnostic) : (u.report d).Tidy := by
  unfold SourceUnit.report
  split
  · exact h
  · exact { h with }

theorem Tidy.learned (h : u.Tidy) (hb : u.state.isBound = true) (node : NodeId) (key : EvalKey)
    (type : TypeId) : (u.learned node key type).Tidy := by
  refine ⟨h.bound, h.parsed, h.stale, fun hn => ?_⟩
  have hn : u.binding = none := hn
  have := (h.bound hb).2
  rw [hn] at this
  exact nomatch this

/-- A report changes the list of reports only. -/
theorem rest_report (u : SourceUnit) (d : Diagnostic) :
    u.report d = { u with checkReports := (u.report d).checkReports } := by
  unfold SourceUnit.report
  split <;> rfl

end SourceUnit

namespace Session

/-! ## Steps -/

/-- One step of an evaluation that keeps no result. -/
inductive QuietStep (slack : Nat) (s : Session) : Session → Prop
  /-- A unit is brought closer to being bound. -/
  | bind {t : Session} (h : BindStep s t) : QuietStep slack s t
  /-- The results of a bound unit are opened for the current generation. -/
  | enter {file : FileId} {u : SourceUnit} (hu : s.unit? file = some u)
    (hb : u.state.isBound = true) :
    QuietStep slack s (s.modifyUnit file (·.evaluating s.generation))
  /-- A file is met. -/
  | meet (path : String) : QuietStep slack s (s.unitFor path).2
  /-- An import is recorded. -/
  | link (file target : FileId) : QuietStep slack s { s with graph := s.graph.add file target }
  /-- A problem is reported. -/
  | report (file : FileId) (d : Diagnostic) : QuietStep slack s (s.modifyUnit file (·.report d))
  /-- Types are made. -/
  | make {types : TypeTable} (he : s.types.Extends types) (hc : types.Closed slack) :
    QuietStep slack s { s with types := types }

/-- One step of an evaluation. -/
inductive EvalStep (slack : Nat) (s : Session) : Session → Prop
  | quiet {t : Session} (h : QuietStep slack s t) : EvalStep slack s t
  /-- A result is kept. -/
  | learn {file : FileId} {u : SourceUnit} (node : NodeId) (key : EvalKey) {type : TypeId}
    (hu : s.unit? file = some u) (hb : u.state.isBound = true)
    (hs : u.analysis.stamp = s.generation) (ht : type < s.types.extent slack) :
    EvalStep slack s (s.modifyUnit file (·.learned node key type))

/-- Some steps of an evaluation. -/
abbrev Evaluates (slack : Nat) : Session → Session → Prop :=
  Relation.ReflTransGen (EvalStep slack)

variable {slack : Nat} {s t : Session} {file other : FileId} {f : SourceUnit → SourceUnit}
  {v : SourceUnit}

/-- A property that every step of an evaluation keeps is kept by the evaluation. -/
theorem Evaluates.induct {P : Session → Prop} (hP : ∀ s t, EvalStep slack s t → P s → P t)
    (h : Evaluates slack s t) (hs : P s) : P t := by
  induction h with
  | refl => exact hs
  | tail _ hstep ih => exact hP _ _ hstep ih

/-- Some steps of an evaluation that keep no results. -/
abbrev Quietly (slack : Nat) : Session → Session → Prop :=
  Relation.ReflTransGen (QuietStep slack)

theorem Binds.quietly (h : Binds s t) : Quietly slack s t := by
  induction h with
  | refl => exact .refl
  | tail _ hstep ih => exact ih.tail (.bind hstep)

theorem Quietly.evaluates (h : Quietly slack s t) : Evaluates slack s t := by
  induction h with
  | refl => exact .refl
  | tail _ hstep ih => exact ih.tail (.quiet hstep)

/-! ## What a step does -/

/-- What a step of an evaluation does to a unit. -/
inductive EvalChange (s : Session) (file : FileId) (u : SourceUnit) : SourceUnit → Prop
  | bind {v : SourceUnit} (h : BindChange s file u v) : EvalChange s file u v
  | enter (hb : u.state.isBound = true) : EvalChange s file u (u.evaluating s.generation)
  | report (d : Diagnostic) : EvalChange s file u (u.report d)
  | learn (node : NodeId) (key : EvalKey) (type : TypeId) (hb : u.state.isBound = true) :
    EvalChange s file u (u.learned node key type)

private theorem EvalChange.same (s : Session) (file : FileId) (u : SourceUnit) :
    EvalChange s file u u :=
  .bind (.same s file u)

-- A step that changes one unit in place is a change of that unit and none of the others.
private theorem evalChange_modifyUnit {u : SourceUnit} (hu : s.unit? file = some u)
    (hf : ∀ v, s.unit? other = some v → EvalChange s other v (f v)) :
    ∃ v, (s.modifyUnit other f).unit? file = some v ∧ EvalChange s file u v := by
  rw [unit?_modifyUnit, hu]
  split
  · next h =>
    subst h
    exact ⟨_, rfl, hf u hu⟩
  · exact ⟨u, rfl, .same s file u⟩

/-- An evaluation neither takes units away nor changes them in any other way. -/
theorem EvalStep.unit?_of_some (h : EvalStep slack s t) {u : SourceUnit}
    (hu : s.unit? file = some u) : ∃ v, t.unit? file = some v ∧ EvalChange s file u v := by
  cases h with
  | quiet h =>
    cases h with
    | bind hb =>
      obtain ⟨v, hv, hc⟩ := hb.unit?_of_some hu
      exact ⟨v, hv, .bind hc⟩
    | @enter other w hw hb =>
      refine evalChange_modifyUnit hu fun v hv => ?_
      obtain rfl := Option.some.inj (hv.symm.trans hw)
      exact .enter hb
    | meet path => exact ⟨u, unit?_unitFor_of_some path hu, .same s file u⟩
    | link importer target => exact ⟨u, hu, .same s file u⟩
    | report other d => exact evalChange_modifyUnit hu fun v _ => .report d
    | make he hc => exact ⟨u, hu, .same s file u⟩
  | @learn other w node key type hw hb hs ht =>
    refine evalChange_modifyUnit hu fun v hv => ?_
    obtain rfl := Option.some.inj (hv.symm.trans hw)
    exact .learn node key type hb

-- A unit that was changed in place was there before.
private theorem not_new (hn : s.unit? file = none)
    (hv : (s.modifyUnit other f).unit? file = some v) :
    False := by
  obtain ⟨u, hu, -⟩ := unit?_modifyUnit_eq_some hv
  rw [hn] at hu
  exact nomatch hu

private theorem EvalStep.unit?_of_none (h : EvalStep slack s t) (hn : s.unit? file = none)
    (hv : t.unit? file = some v) :
    ∃ path entries, s.find? path = none ∧
      v = { s.unseenUnit path with importCache := entries } := by
  -- Steps that only touch the graph or the types show the units of before.
  have hsame (hv : s.unit? file = some v) : False := by
    rw [hn] at hv
    exact nomatch hv
  cases h with
  | quiet h =>
    cases h with
    | bind hb => exact hb.unit?_of_none hn hv
    | enter hw hb => exact (not_new hn hv).elim
    | meet path =>
      rw [unit?_unitFor] at hv
      split at hv
      · next hp =>
        refine ⟨path, (s.unseenUnit path).importCache, hp.1, ?_⟩
        generalize s.unseenUnit path = u at hv ⊢
        exact (Option.some.inj hv).symm
      · exact (hsame hv).elim
    | link importer target => exact (hsame hv).elim
    | report other d => exact (not_new hn hv).elim
    | make he hc => exact (hsame hv).elim
  | learn node key hw hb hs ht => exact (not_new hn hv).elim

/-- Every unit after a step of an evaluation is one from before, changed in one of these ways, or a
new one. -/
theorem EvalStep.unit?_cases (h : EvalStep slack s t) (hv : t.unit? file = some v) :
    (∃ u, s.unit? file = some u ∧ EvalChange s file u v) ∨
    ∃ path entries, s.unit? file = none ∧ s.find? path = none ∧
      v = { s.unseenUnit path with importCache := entries } := by
  cases hu : s.unit? file with
  | some u =>
    obtain ⟨w, hw, hc⟩ := h.unit?_of_some hu
    obtain rfl := Option.some.inj (hv.symm.trans hw)
    exact .inl ⟨u, rfl, hc⟩
  | none =>
    obtain ⟨path, entries, hp, rfl⟩ := h.unit?_of_none hu hv
    exact .inr ⟨path, entries, rfl, hp, rfl⟩

/-- An evaluation touches nothing but units with their paths, the graph, the types, what is being
bound, and the counts of parses and bindings. -/
theorem EvalStep.rest (h : EvalStep slack s t) :
    t = { s with
      units := t.units
      paths := t.paths
      graph := t.graph
      types := t.types
      inProgress := t.inProgress
      counters := { s.counters with parses := t.counters.parses, binds := t.counters.binds } } := by
  cases h with
  | quiet h =>
    cases h with
    | bind hb => rw [hb.rest]
    | enter hw hb => rfl
    | meet path => rw [rest_unitFor]
    | link importer target => rfl
    | report other d => rfl
    | make he hc => rfl
  | learn node key hw hb hs ht => rfl

/-- What an evaluation may change of a session. -/
theorem Evaluates.rest (h : Evaluates slack s t) :
    t = { s with
      units := t.units
      paths := t.paths
      graph := t.graph
      types := t.types
      inProgress := t.inProgress
      counters := { s.counters with parses := t.counters.parses, binds := t.counters.binds } } := by
  induction h with
  | refl => rfl
  | tail _ hstep ih =>
    rw [hstep.rest, ih]

/-! ## What an evaluation keeps -/

private theorem EvalChange.tidy {u : SourceUnit} (h : EvalChange s file u v) (hu : u.Tidy) :
    v.Tidy := by
  cases h with
  | bind h => exact h.tidy hu
  | enter hb => exact hu.evaluating hb _
  | report d => exact hu.report d
  | learn node key type hb => exact hu.learned hb node key type

theorem EvalStep.tidy (h : EvalStep slack s t) (hs : s.Tidy) : t.Tidy := by
  intro file v hv
  obtain ⟨u, hu, hc⟩ | ⟨path, entries, -, -, rfl⟩ := h.unit?_cases hv
  · exact hc.tidy (hs file u hu)
  · exact (tidy_unseenUnit s path).ofImportCache entries

theorem EvalStep.indexed (h : EvalStep slack s t) (hs : s.Indexed) :
    t.Indexed := by
  cases h with
  | quiet h =>
    cases h with
    | bind hb => exact hb.indexed hs
    | @enter other u hu hb =>
      exact Indexed.modifyUnit other _ hs fun u _ => by rw [SourceUnit.rest_evaluating]
    | meet path => exact Indexed.unitFor path hs
    | link importer target => exact hs
    | report other d =>
      exact Indexed.modifyUnit other _ hs fun u _ => by rw [SourceUnit.rest_report]
    | make he hc => exact hs
  | @learn other u node key type hu hb hst ht =>
    exact Indexed.modifyUnit other _ hs fun _ _ => rfl

/-- Types are only added. -/
theorem QuietStep.extends (h : QuietStep slack s t) : s.types.Extends t.types := by
  cases h with
  | bind hb =>
    rw [hb.rest]
    exact .refl _
  | enter hu hb => exact .refl _
  | meet path =>
    rw [rest_unitFor]
    exact .refl _
  | link importer target => exact .refl _
  | report other d => exact .refl _
  | make he hc => exact he

theorem EvalStep.extends (h : EvalStep slack s t) : s.types.Extends t.types := by
  cases h with
  | quiet h => exact h.extends
  | learn node key hu hb hs ht => exact .refl _

/-- An evaluation only adds types. -/
theorem Evaluates.extends (h : Evaluates slack s t) : s.types.Extends t.types := by
  induction h with
  | refl => exact .refl _
  | tail _ hstep ih => exact ih.trans hstep.extends

theorem QuietStep.generation (h : QuietStep slack s t) : t.generation = s.generation := by
  rw [(EvalStep.quiet h).rest]

/-- A quiet step adds no results and moves none to another generation. -/
theorem QuietStep.inherits (h : QuietStep slack s t) : s.Inherits t := by
  cases h with
  | bind hb => exact hb.inherits
  | enter hu hb =>
    refine inherits_modifyUnit fun u _ => ?_
    rcases u.analysis_evaluating s.generation with h | h
    · exact .inr h
    · rw [h]
      exact .inl rfl
  | meet path => exact inherits_unitFor s path
  | link importer target => exact .refl s
  | report other d =>
    refine inherits_modifyUnit fun u _ => ?_
    rw [SourceUnit.rest_report]
    exact .inr rfl
  | make he hc => exact .refl s

theorem Inherits.typeAt? (h : s.Inherits t) (hv : t.unit? file = some v)
    (ht : v.typeAt? node slot = some type) :
    ∃ u, s.unit? file = some u ∧ u.typeAt? node slot = some type ∧
      v.analysis.stamp = u.analysis.stamp := by
  obtain he | ⟨u, hu, huv⟩ := h file v hv
  · rw [SourceUnit.typeAt?_of_isEmpty he] at ht
    exact nomatch ht
  · refine ⟨u, hu, ?_, by rw [huv]⟩
    rw [SourceUnit.typeAt?, huv]
    exact ht

/-! ## Coherent sessions -/

/-- Units are tidy, and all that the current results and the types of the table mention are types
that may be mentioned. -/
structure Coherent (slack : Nat) (s : Session) : Prop where
  tidy : s.Tidy
  closed : s.types.Closed slack
  readable : ∀ file u node slot type, s.unit? file = some u → u.analysis.stamp = s.generation →
    u.typeAt? node slot = some type → type < s.types.extent slack

theorem QuietStep.coherent (h : QuietStep slack s t) (hs : s.Coherent slack) :
    t.Coherent slack where
  tidy := (EvalStep.quiet h).tidy hs.tidy
  closed := by
    cases h with
    | bind hb =>
      rw [hb.rest]
      exact hs.closed
    | enter hu hb => exact hs.closed
    | meet path =>
      rw [rest_unitFor]
      exact hs.closed
    | link importer target => exact hs.closed
    | report other d => exact hs.closed
    | make he hc => exact hc
  readable := by
    intro file v node slot type hv hstamp ht
    obtain ⟨u, hu, hut, hst⟩ := h.inherits.typeAt? hv ht
    have hstamp : u.analysis.stamp = s.generation := by rw [← hst, hstamp, h.generation]
    have hlt := hs.readable file u node slot type hu hstamp hut
    exact Nat.lt_of_lt_of_le hlt (h.extends.extent_le slack)

private theorem EvalStep.coherent (h : EvalStep slack s t) (hs : s.Coherent slack) :
    t.Coherent slack := by
  cases h with
  | quiet h => exact h.coherent hs
  | @learn other u node key type hu hb hst ht =>
    refine ⟨(EvalStep.learn node key hu hb hst ht).tidy hs.tidy, hs.closed, ?_⟩
    intro file v node' slot type' hv hstamp hvt
    obtain ⟨w, hw, ⟨rfl, rfl⟩ | ⟨-, rfl⟩⟩ := unit?_modifyUnit_eq_some hv
    · rw [SourceUnit.typeAt?_learned] at hvt
      split at hvt
      · exact Option.some.inj hvt ▸ ht
      · exact hs.readable file w node' slot type' hw hstamp hvt
    · exact hs.readable file v node' slot type' hw hstamp hvt

/-- An evaluation keeps a session coherent. -/
theorem Evaluates.coherent (h : Evaluates slack s t) (hs : s.Coherent slack) : t.Coherent slack :=
  h.induct (fun _ _ hstep => hstep.coherent) hs

end Session
end LiveCheck
