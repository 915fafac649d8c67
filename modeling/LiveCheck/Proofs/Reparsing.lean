import LiveCheck.Proofs.Consistency

/-!
# A file is parsed again only if its content changed

Whatever happens to other files, a unit is parsed again only if it was told of a change since its
last parse, and only if the fingerprint of its content is another one than at the last parse. So the
contents that a unit is parsed from, one after the other, have different fingerprints each time, and
there are at most as many parses as changes of the unit itself, and one more.
-/

namespace LiveCheck

/-! ## What was parsed -/

namespace SourceUnit

variable {u v : SourceUnit}

/-- Two states of a unit do not differ in the tree, in what it was made from, and in how often the
unit was parsed. -/
private structure SameParse (u v : SourceUnit) : Prop where
  tree : v.tree = u.tree
  content : v.content = u.content
  fingerprint : v.fingerprint = u.fingerprint
  parses : v.stats.parses = u.stats.parses

/-- A unit without a tree was never parsed; one with a tree knows the content that it was made from,
and the fingerprint of it. -/
private structure Recorded (u : SourceUnit) : Prop where
  none : u.tree = none → u.content = none ∧ u.stats.parses = 0
  some : u.tree.isSome = true → ∃ content,
    u.content = some content ∧ u.fingerprint = some (Text.fingerprint content)

private theorem SameParse.refl (u : SourceUnit) : u.SameParse u := ⟨rfl, rfl, rfl, rfl⟩

private theorem SameParse.recorded (h : u.SameParse v) (hu : u.Recorded) : v.Recorded where
  none ht := by
    rw [h.content, h.parses]
    exact hu.none (h.tree ▸ ht)
  some ht := by
    rw [h.content, h.fingerprint]
    exact hu.some (h.tree ▸ ht)

private theorem recorded_parsed (u : SourceUnit) (content : String) :
    (u.parsed content (Text.fingerprint content)).Recorded :=
  ⟨nofun, fun _ => ⟨content, rfl, rfl⟩⟩

end SourceUnit

namespace Session

variable {origin s t r : Session} {file : FileId} {texts : List String} {slack changes : Nat}
  {content path : String} {files : List FileId} {op : Operation}

private def Recorded (s : Session) : Prop := ∀ file u, s.unit? file = some u → u.Recorded

/-- How often a unit was parsed. -/
def parseCount (s : Session) (file : FileId) : Nat := (s.unit? file).elim 0 (·.stats.parses)

/-- The content that a unit was last parsed from. -/
def parsedText? (s : Session) (file : FileId) : Option String := (s.unit? file).bind (·.content)

private def Differ (a b : String) : Prop := Text.fingerprint a ≠ Text.fingerprint b

/-- A unit has not been parsed between two sessions. -/
private structure Unparsed (s t : Session) (file : FileId) : Prop where
  count : t.parseCount file = s.parseCount file
  text : t.parsedText? file = s.parsedText? file

/-- A unit has been parsed once between two sessions, from a content that has another fingerprint
than the last one. -/
private structure ParsedAnew (s t : Session) (file : FileId) (content : String) : Prop where
  count : t.parseCount file = s.parseCount file + 1
  text : t.parsedText? file = some content
  print : ∀ old, s.parsedText? file = some old → Differ old content

/-- What has been parsed of a unit between two sessions: nothing, or one content, because the unit was
never parsed or because it waited. -/
private inductive ParseChange (s t : Session) (file : FileId) : Prop
  | same (h : Unparsed s t file)
  | parse (content : String) (h : ParsedAnew s t file content)
    (hreason : s.parseCount file = 0 ∨ file ∈ s.dirty)

private theorem Unparsed.trans (h : Unparsed s t file) (h' : Unparsed t r file) :
    Unparsed s r file := ⟨h'.count.trans h.count, h'.text.trans h.text⟩

private theorem Unparsed.parsedAnew (h : Unparsed s t file) (h' : ParsedAnew t r file content) :
    ParsedAnew s r file content where
  count := by rw [h'.count, h.count]
  text := h'.text
  print old hold := h'.print old (h.text.trans hold)

private theorem ParsedAnew.unparsed (h : ParsedAnew s t file content) (h' : Unparsed t r file) :
    ParsedAnew s r file content :=
  ⟨h'.count.trans h.count, h'.text.trans h.text, h.print⟩

private theorem ParseChange.unparsed (h : ParseChange s t file) (h' : Unparsed t r file) :
    ParseChange s r file := by
  cases h with
  | same h => exact .same (h.trans h')
  | parse content h hreason => exact .parse content (h.unparsed h') hreason

private theorem unparsed_of_unit?_eq (h : t.unit? file = s.unit? file) : Unparsed s t file :=
  ⟨by rw [parseCount, parseCount, h], by rw [parsedText?, parsedText?, h]⟩

/-- What a step that looks at no changed unit makes of a unit: its tree is the one from before, or it
is parsed for the first time, or it is new. -/
private inductive Derived (s : Session) (file : FileId) (v : SourceUnit) : Prop
  | same {u : SourceUnit} (hu : s.unit? file = some u) (h : u.SameParse v)
  | first {u : SourceUnit} {content : String} (hu : s.unit? file = some u) (ht : u.tree = none)
    (h : v = u.parsed content (Text.fingerprint content))
  | new (hu : s.unit? file = none) (ht : v.tree = none) (hc : v.content = none)
    (hp : v.stats.parses = 0)

private theorem Derived.recorded {v : SourceUnit} (h : Derived s file v) (hs : s.Recorded) :
    v.Recorded := by
  cases h with
  | same hu h => exact h.recorded (hs file _ hu)
  | first hu ht h =>
    rw [h]
    exact SourceUnit.recorded_parsed _ _
  | new hu ht hc hp =>
    refine ⟨fun _ => ⟨hc, hp⟩, fun hsome => ?_⟩
    rw [ht] at hsome
    exact nomatch hsome

/-- The parses since an earlier session. -/
private structure Advances (origin s : Session) : Prop where
  continues : origin.Continues s
  changes : ∀ file, (s.unit? file).isSome = true → ParseChange origin s file

private theorem Advances.refl (s : Session) : s.Advances s := ⟨.refl s, fun _ _ => .same ⟨rfl, rfl⟩⟩

private theorem parseCount_eq {u : SourceUnit} (hu : s.unit? file = some u) :
    s.parseCount file = u.stats.parses := by
  rw [parseCount, hu]
  rfl

private theorem parsedText?_eq {u : SourceUnit} (hu : s.unit? file = some u) :
    s.parsedText? file = u.content := by
  rw [parsedText?, hu]
  rfl

private theorem parseCount_of_none (hu : s.unit? file = none) : s.parseCount file = 0 := by
  rw [parseCount, hu]
  rfl

private theorem parsedText?_of_none (hu : s.unit? file = none) : s.parsedText? file = none := by
  rw [parsedText?, hu]
  rfl

private theorem unit?_eq_none_of_le (h : s.units.size ≤ file) : s.unit? file = none := by
  simp [unit?, h]

private theorem Continues.unit?_eq_none (h : origin.Continues s) (hc : s.Continues t)
    (hn : s.unit? file = none) {v : SourceUnit} (hv : t.unit? file = some v) :
    origin.unit? file = none := by
  refine unit?_eq_none_of_le (Nat.le_trans h.size (Nat.le_of_not_lt fun hlt => ?_))
  have hpath := hc.path file hlt v.path (path?_eq_some hv)
  rw [path?, hn] at hpath
  exact absurd hpath.symm (Option.some_ne_none v.path)

private theorem Advances.derived (ha : origin.Advances s) (hr : s.Recorded) (hc : s.Continues t)
    (h : ∀ file v, t.unit? file = some v → Derived s file v) : origin.Advances t := by
  refine ⟨ha.continues.trans hc, fun file hsome => ?_⟩
  obtain ⟨v, hv⟩ := Option.isSome_iff_exists.mp hsome
  cases h file v hv with
  | @same u hu hsame =>
    refine (ha.changes file (by rw [hu]; rfl)).unparsed ⟨?_, ?_⟩
    · rw [parseCount_eq hu, parseCount_eq hv, hsame.parses]
    · rw [parsedText?_eq hu, parsedText?_eq hv, hsame.content]
  | @first u content hu ht heq =>
    obtain ⟨hcontent, hparses⟩ := (hr file u hu).none ht
    rw [heq] at hv
    cases ha.changes file (by rw [hu]; rfl) with
    | same h =>
      have hcount : origin.parseCount file = 0 := by rw [← h.count, parseCount_eq hu, hparses]
      have htext : origin.parsedText? file = none := by rw [← h.text, parsedText?_eq hu, hcontent]
      refine .parse content ⟨?_, parsedText?_eq hv, fun old hold => ?_⟩ (.inl hcount)
      · rw [parseCount_eq hv, hcount]
        exact congrArg (· + 1) hparses
      · rw [htext] at hold
        exact nomatch hold
    | parse other h hreason =>
      -- A unit that has been parsed since has a tree.
      have := h.count
      rw [parseCount_eq hu, hparses] at this
      exact nomatch this
  | new hu ht hcontent hparses =>
    have hnone := ha.continues.unit?_eq_none hc hu hv
    refine .same ⟨?_, ?_⟩
    · rw [parseCount_eq hv, parseCount_of_none hnone, hparses]
    · rw [parsedText?_eq hv, parsedText?_of_none hnone, hcontent]

/-! ## Single steps -/

private theorem SourceUnit.sameParse_evaluating (u : SourceUnit) (generation : Nat) :
    u.SameParse (u.evaluating generation) := by
  rw [u.rest_evaluating]
  exact ⟨rfl, rfl, rfl, rfl⟩

private theorem EvalStep.derived (h : EvalStep slack s t) (hw : s.Whole)
    (hc : ∀ file, ¬ s.IsChanged file)
    (file : FileId) (v : SourceUnit) (hv : t.unit? file = some v) : Derived s file v := by
  obtain ⟨u, hu, hchange⟩ | ⟨path, entries, hn, -, rfl⟩ := h.unit?_cases hv
  · cases hchange with
    | bind hchange =>
      cases hchange with
      | cache entries => exact .same hu ⟨rfl, rfl, rfl, rfl⟩
      | parse hstate hcontent =>
        rcases hstate with hstate | hstate
        · exact .first hu ((hw file u hu).unseen hstate).1 rfl
        · exact absurd ⟨u, hu, hstate⟩ (hc file)
      | discard hs => exact .same hu ⟨rfl, rfl, rfl, rfl⟩
      | bind binding hb => exact .same hu ⟨rfl, rfl, rfl, rfl⟩
    | enter hb => exact .same hu (SourceUnit.sameParse_evaluating u _)
    | report d =>
      rw [u.rest_report] at hv ⊢
      exact .same hu ⟨rfl, rfl, rfl, rfl⟩
    | learn node key type hb => exact .same hu ⟨rfl, rfl, rfl, rfl⟩
  · exact .new hn rfl rfl rfl

private theorem EditStep.derived (h : EditStep texts s t) (file : FileId) (v : SourceUnit)
    (hv : t.unit? file = some v) : Derived s file v := by
  obtain ⟨u, hu, hchange⟩ | ⟨path, hn, -, rfl⟩ := h.unit?_cases hv
  · cases hchange with
    | same => exact .same hu (.refl v)
    | replace overlay => exact .same hu ⟨rfl, rfl, rfl, rfl⟩
    | touch => exact .same hu ⟨rfl, rfl, rfl, rfl⟩
  · exact .new hn rfl rfl rfl

private theorem FlushEnd.derived (h : FlushEnd s t) (file : FileId) (v : SourceUnit)
    (hv : t.unit? file = some v) : Derived s file v := by
  obtain ⟨u, hu, hrest⟩ := h.unit?_rest hv
  rw [hrest]
  exact .same hu ⟨rfl, rfl, rfl, rfl⟩

private theorem derived_markChecked (s : Session) (checked file : FileId) (v : SourceUnit)
    (hv : (Query.markChecked checked s).unit? file = some v) : Derived s file v := by
  obtain ⟨u, hu, ⟨-, rfl⟩ | ⟨-, rfl⟩⟩ := unit?_modifyUnit_eq_some (s := s) hv
  · exact .same hu ⟨rfl, rfl, rfl, rfl⟩
  · exact .same hu (.refl v)

/-! ## Going through the changed units -/

private theorem ReparseStep.recorded (h : ReparseStep s file t) (hs : s.Recorded) : t.Recorded := by
  intro other v hv
  by_cases hne : other = file
  · subst hne
    cases h with
    | skip hu => exact hs other v hv
    | forget hu hc => exact absurd rfl (unit?_forget_eq_some hv).1
    | @restore u content hu hc ht hf =>
      rw [unit?_modifyUnit_self, hu] at hv
      obtain rfl := Option.some.inj hv
      have hsame : u.SameParse u.restored := ⟨rfl, rfl, rfl, rfl⟩
      exact hsame.recorded (hs other u hu)
    | parse hu hc hn =>
      rw [unit?_parseUnit hu] at hv
      obtain rfl := Option.some.inj hv
      exact SourceUnit.recorded_parsed _ _
  · rw [h.unit?_of_ne hne] at hv
    exact hs other v hv

private theorem ReparseStep.parses (h : ReparseStep s file t) (hs : s.Recorded)
    (hsome : (t.unit? file).isSome = true) :
    Unparsed s t file ∨ ∃ content, ParsedAnew s t file content := by
  cases h with
  | skip hu => exact .inl ⟨rfl, rfl⟩
  | forget hu hc =>
    rw [unit?_forget, if_pos rfl] at hsome
    exact nomatch hsome
  | @restore u content hu hc ht hf =>
    have hv : (s.modifyUnit file SourceUnit.restored).unit? file = some u.restored := by
      rw [unit?_modifyUnit_self, hu]
      rfl
    refine .inl ⟨?_, ?_⟩
    · rw [parseCount_eq hv, parseCount_eq hu]
      rfl
    · rw [parsedText?_eq hv, parsedText?_eq hu]
      rfl
  | @parse u content hu hc hn =>
    have hv := unit?_parseUnit hu content
    refine .inr ⟨content, ?_, parsedText?_eq hv, fun old hold heq => ?_⟩
    · rw [parseCount_eq hv, parseCount_eq hu]
      rfl
    · rw [parsedText?_eq hu] at hold
      cases ht : u.tree with
      | none =>
        rw [((hs file u hu).none ht).1] at hold
        exact nomatch hold
      | some tree =>
        obtain ⟨known, hknown, hprint⟩ := (hs file u hu).some (by rw [ht]; rfl)
        obtain rfl := Option.some.inj (hknown.symm.trans hold)
        exact hn ⟨by rw [ht]; rfl, by rw [hprint, heq]⟩

private theorem Reparses.parses (h : Reparses s files t) (hs : s.Recorded) (hnodup : files.Nodup)
    (hsome : (t.unit? file).isSome = true) :
    Unparsed s t file ∨ file ∈ files ∧ ∃ content, ParsedAnew s t file content := by
  induction h with
  | nil s => exact .inl ⟨rfl, rfl⟩
  | @cons s t r first files hstep hrest ih =>
    obtain ⟨hfirst, hnodup⟩ := List.nodup_cons.mp hnodup
    by_cases hne : file = first
    · subst hne
      have hunit := hrest.unit?_of_not_mem hfirst
      have hlater := unparsed_of_unit?_eq hunit
      refine (hstep.parses hs (hunit ▸ hsome)).imp (·.trans hlater) fun ⟨content, h⟩ => ?_
      exact ⟨List.mem_cons_self, content, h.unparsed hlater⟩
    · have hearlier := unparsed_of_unit?_eq (hstep.unit?_of_ne hne)
      refine (ih (hstep.recorded hs) hnodup hsome).imp hearlier.trans fun ⟨hmem, content, h⟩ => ?_
      exact ⟨List.mem_cons_of_mem first hmem, content, hearlier.parsedAnew h⟩

private theorem Reparses.recorded (h : Reparses s files t) (hs : s.Recorded) :
    t.Recorded := by
  induction h with
  | nil s => exact hs
  | cons hstep _ ih => exact ih (hstep.recorded hs)

private theorem Reparses.continues (h : Reparses s files t) : s.Continues t := by
  induction h with
  | nil s => exact .refl s
  | cons hstep _ ih => exact hstep.continues.trans ih

private theorem Maintained.advances_reparsed (hs : s.Maintained) (hr : s.Recorded) :
    s.Advances s.reparsed.2.2 ∧ s.reparsed.2.2.Recorded := by
  have hrep := reparses_reparsed s
  have hcleared : ({ s with dirty := [], pendingFull := false } : Session).Recorded := hr
  refine ⟨⟨⟨hrep.continues.size, hrep.continues.path⟩, fun file hsome => ?_⟩,
    hrep.recorded hcleared⟩
  rcases hrep.parses hcleared hs.nodup hsome with h | ⟨hmem, content, h⟩
  · exact .same ⟨h.count, h.text⟩
  · exact .parse content { h with } (.inr hmem)

/-! ## Flushes and questions -/

private theorem EvalStep.recorded (h : EvalStep slack s t) (hw : s.Whole)
    (hc : ∀ file, ¬ s.IsChanged file) (hs : s.Recorded) : t.Recorded :=
  fun file v hv => (h.derived hw hc file v hv).recorded hs

/-- No unit is changed, all units are whole and know what they were made from, and since an earlier
session each was parsed at most once. -/
private structure Advanced (origin s : Session) : Prop where
  whole : s.Whole
  unchanged : ∀ file, ¬ s.IsChanged file
  recorded : s.Recorded
  advances : origin.Advances s

private theorem EvalStep.advanced (h : EvalStep slack s t) (hs : Advanced origin s) :
    Advanced origin t where
  whole := h.whole hs.whole
  unchanged file hc := hs.unchanged file (h.isChanged hc)
  recorded := h.recorded hs.whole hs.unchanged hs.recorded
  advances := hs.advances.derived hs.recorded h.continues (h.derived hs.whole hs.unchanged)

private theorem Maintained.advanced_rebound (hs : s.Maintained) (hr : s.Recorded) :
    Advanced s s.rebound.2.2 := by
  obtain ⟨hwhole, hchanged, -⟩ := hs.reparsed
  obtain ⟨hadvances, hrecorded⟩ := hs.advances_reparsed hr
  refine (binds_rebound hs.orderly.1).induct (fun _ _ hstep => ?_)
    ⟨hwhole, hchanged, hrecorded, hadvances⟩
  exact (BindStep.evalStep hstep : EvalStep 0 _ _).advanced

private theorem Maintained.advances_flush (hs : s.Maintained) (hr : s.Recorded) :
    s.Advances s.flush ∧ s.flush.Recorded := by
  cases hp : s.hasPendingChanges with
  | false =>
    rw [flush_of_not_pending hp]
    exact ⟨.refl s, hr⟩
  | true =>
    have hrebound := hs.advanced_rebound hr
    have hend := flushEnd_rebound hp
    exact ⟨hrebound.advances.derived hrebound.recorded hend.continues hend.derived,
      fun file v hv => (hend.derived file v hv).recorded hrebound.recorded⟩

private def Underway (origin s : Session) : Prop := s.Fresh ∧ s.Recorded ∧ origin.Advances s

private theorem Underway.advanced (hs : Underway origin s) : Advanced origin s :=
  ⟨hs.1.1.whole, hs.1.not_isChanged, hs.2.1, hs.2.2⟩

private theorem flushEnd_of_dirty_eq_nil (hd : s.dirty = []) (hp : s.hasPendingChanges = true) :
    FlushEnd { s with pendingFull := false } s.flush := by
  have hend := flushEnd_rebound hp
  have hrebound : s.rebound.2.2 = { s with pendingFull := false } := by
    simp [Session.rebound, Session.reparsed, hd, reparse, rebind]
  rwa [hrebound] at hend

private theorem Underway.flush (hs : Underway origin s) : Underway origin s.flush := by
  obtain ⟨hadvances, hrecorded⟩ := hs.1.1.advances_flush hs.2.1
  refine ⟨hs.1.1.flush, hrecorded, ?_⟩
  cases hp : s.hasPendingChanges with
  | false =>
    rw [flush_of_not_pending hp]
    exact hs.2.2
  | true =>
    have hend := flushEnd_of_dirty_eq_nil hs.1.2 hp
    have hcleared : origin.Advances { s with pendingFull := false } :=
      ⟨⟨hs.2.2.continues.size, hs.2.2.continues.path⟩,
        fun file hsome => (hs.2.2.changes file hsome).unparsed (unparsed_of_unit?_eq rfl)⟩
    exact hcleared.derived hs.2.1 hend.continues hend.derived

private theorem Underway.performs (hs : Underway origin s) (h : Performs slack s t) :
    Underway origin t := by
  have hadvanced : Advanced origin t := h.steps.induct (fun _ _ hstep => hstep.advanced) hs.advanced
  exact ⟨hs.1.performs h, hadvanced.recorded, hadvanced.advances⟩

private theorem Underway.markChecked (hs : Underway origin s) (hb : s.IsBound file) :
    Underway origin (Query.markChecked file s) := by
  have hcontinues : s.Continues (Query.markChecked file s) := continues_modified rfl fun _ _ => rfl
  exact ⟨hs.1.markChecked hb,
    fun other v hv => (derived_markChecked s file other v hv).recorded hs.2.1,
    hs.2.2.derived hs.2.1 hcontinues (derived_markChecked s file)⟩

private theorem Underway.register (hs : Underway origin s) (target : HandleTarget) :
    Underway origin { s with handles := (s.handles.register target).2 } :=
  ⟨respected_fresh.register s target hs.1, hs.2.1,
    ⟨hs.2.2.continues.size, hs.2.2.continues.path⟩,
    fun file hsome => (hs.2.2.changes file hsome).unparsed (unparsed_of_unit?_eq rfl)⟩

private theorem respected_underway (origin : Session) : Query.Respected (Underway origin) where
  flush _ hs := hs.flush
  evaluate s hs := by
    obtain ⟨slack, hc⟩ := hs.1.1.orderly.1.exists_coherent
    exact ⟨slack, hc, fun _ ht => hs.performs ht⟩
  check _ _ hs hb := hs.markChecked hb
  register _ target hs := hs.register target

/-! ## Changes -/

private theorem Edits.unparsed (h : Edits texts s t) (hs : s.Recorded) :
    s.Continues t ∧ t.Recorded ∧ ∀ file, (t.unit? file).isSome = true → Unparsed s t file := by
  refine h.induct (P := fun r => s.Continues r ∧ r.Recorded ∧
    ∀ file, (r.unit? file).isSome = true → Unparsed s r file) (fun r t hstep hr => ?_)
    ⟨.refl s, hs, fun _ _ => ⟨rfl, rfl⟩⟩
  obtain ⟨hcontinues, hrecorded, hunparsed⟩ := hr
  refine ⟨hcontinues.trans hstep.continues,
    fun file v hv => (hstep.derived file v hv).recorded hrecorded, fun file hsome => ?_⟩
  obtain ⟨v, hv⟩ := Option.isSome_iff_exists.mp hsome
  obtain ⟨u, hu, hchange⟩ | ⟨path, hn, -, rfl⟩ := hstep.unit?_cases hv
  · refine (hunparsed file (by rw [hu]; rfl)).trans ⟨?_, ?_⟩
    · rw [parseCount_eq hu, parseCount_eq hv]
      cases hchange <;> rfl
    · rw [parsedText?_eq hu, parsedText?_eq hv]
      cases hchange <;> rfl
  · have hnone := hcontinues.unit?_eq_none hstep.continues hn hv
    refine ⟨?_, ?_⟩
    · rw [parseCount_eq hv, parseCount_of_none hnone]
      rfl
    · rw [parsedText?_eq hv, parsedText?_of_none hnone]
      rfl

private theorem advances_apply (hs : s.Maintained) (hr : s.Recorded) (op : Operation) :
    s.Advances (s.apply op) ∧ (s.apply op).Recorded ∧
      ((s.apply op).dirty = [] ∨
        ∀ file, ((s.apply op).unit? file).isSome = true → Unparsed s (s.apply op) file) := by
  rcases s.apply_cases op with h | ⟨files, h⟩ | h | ⟨question, h⟩
  · obtain ⟨hcontinues, hrecorded, hunparsed⟩ := h.unparsed hr
    exact ⟨⟨hcontinues, fun file hsome => .same (hunparsed file hsome)⟩, hrecorded, .inr hunparsed⟩
  · rw [h]
    exact ⟨⟨⟨Nat.le_refl _, fun _ _ _ h => h⟩, fun _ _ => .same ⟨rfl, rfl⟩⟩, hr,
      .inr fun _ _ => ⟨rfl, rfl⟩⟩
  · rw [h]
    obtain ⟨hadvances, hrecorded⟩ := hs.advances_flush hr
    exact ⟨hadvances, hrecorded, .inl hs.flush.2⟩
  · rw [h]
    obtain ⟨hadvances, hrecorded⟩ := hs.advances_flush hr
    have hend : Underway s (s.asked question) :=
      (respected_underway s).asked ⟨hs.flush, hrecorded, hadvances⟩ question
    exact ⟨hend.2.2, hend.2.1, .inl hend.1.2⟩

/-! ## Parses of a run -/

/-- The content that an operation parses of a unit, if any. -/
def parsedBy (s : Session) (file : FileId) (op : Operation) : List String :=
  if s.parseCount file < (s.apply op).parseCount file then ((s.apply op).parsedText? file).toList
  else []

/-- The contents that a unit is parsed from in a run, one after the other. -/
def parseLog (file : FileId) : Session → List Operation → List String
  | _, [] => []
  | s, op :: ops => s.parsedBy file op ++ parseLog file (s.apply op) ops

private theorem parsedBy_of_unparsed (h : Unparsed s (s.apply op) file) :
    s.parsedBy file op = [] := by
  simp [parsedBy, h.count]

private theorem parsedBy_of_parsedAnew (h : ParsedAnew s (s.apply op) file content) :
    s.parsedBy file op = [content] := by
  simp [parsedBy, h.count, h.text]

private theorem parsedBy_of_none (h : (s.apply op).unit? file = none) :
    s.parsedBy file op = [] := by
  simp [parsedBy, parseCount_of_none h]

private def Tracked (s : Session) : Prop := s.Maintained ∧ s.Recorded

private theorem Tracked.apply (hs : s.Tracked) (op : Operation) : (s.apply op).Tracked :=
  ⟨hs.1.apply op, (advances_apply hs.1 hs.2 op).2.1⟩

private theorem Tracked.continues_apply (hs : s.Tracked) (op : Operation) :
    s.Continues (s.apply op) :=
  (advances_apply hs.1 hs.2 op).1.continues

private theorem Tracked.continues_after (hs : s.Tracked) (ops : List Operation) :
    s.Continues (s.after ops) := by
  induction ops generalizing s with
  | nil => exact .refl s
  | cons op ops ih => exact (hs.continues_apply op).trans (ih (hs.apply op))

private theorem Continues.unit?_of_gone (h : s.Continues t) (hlt : file < s.units.size)
    (hn : s.unit? file = none) : t.unit? file = none := by
  cases hv : t.unit? file with
  | none => rfl
  | some v =>
    have hpath := h.path file hlt v.path (path?_eq_some hv)
    rw [path?, hn] at hpath
    exact absurd hpath.symm (Option.some_ne_none v.path)

private theorem Tracked.parseLog_of_gone (hs : s.Tracked) (hlt : file < s.units.size)
    (hn : s.unit? file = none) (ops : List Operation) : parseLog file s ops = [] := by
  induction ops generalizing s with
  | nil => rfl
  | cons op ops ih =>
    have hcontinues := hs.continues_apply op
    have hgone := hcontinues.unit?_of_gone hlt hn
    rw [parseLog, parsedBy_of_none hgone,
      ih (hs.apply op) (Nat.lt_of_lt_of_le hlt hcontinues.size) hgone, List.nil_append]

private theorem Tracked.isChain_parseLog (hs : s.Tracked) (ops : List Operation) :
    ((s.parsedText? file).toList ++ parseLog file s ops).IsChain Differ := by
  induction ops generalizing s with
  | nil => cases s.parsedText? file <;> simp [parseLog]
  | cons op ops ih =>
    have hrest := ih (hs.apply op)
    rw [parseLog]
    cases hv : (s.apply op).unit? file with
    | none =>
      rw [parsedBy_of_none hv, List.nil_append]
      cases hu : s.unit? file with
      | none =>
        rw [parsedText?_of_none hv] at hrest
        rw [parsedText?_of_none hu]
        exact hrest
      | some u =>
        have hlt := Nat.lt_of_lt_of_le (lt_size_of_unit? hu) (hs.continues_apply op).size
        rw [(hs.apply op).parseLog_of_gone hlt hv]
        cases s.parsedText? file <;> simp
    | some v =>
      cases (advances_apply hs.1 hs.2 op).1.changes file (by rw [hv]; rfl) with
      | same h =>
        rw [parsedBy_of_unparsed h, List.nil_append, ← h.text]
        exact hrest
      | parse content h hreason =>
        rw [h.text] at hrest
        rw [parsedBy_of_parsedAnew h]
        cases hold : s.parsedText? file with
        | none => exact hrest
        | some old => exact List.isChain_cons_cons.mpr ⟨h.print old hold, hrest⟩

private theorem Tracked.length_parseLog (hs : s.Tracked) (ops : List Operation) {u : SourceUnit}
    (hu : (s.after ops).unit? file = some u) :
    s.parseCount file + (parseLog file s ops).length = u.stats.parses := by
  induction ops generalizing s with
  | nil => exact parseCount_eq hu
  | cons op ops ih =>
    have hrest := ih (hs.apply op) hu
    rw [parseLog, List.length_append, ← hrest]
    cases hv : (s.apply op).unit? file with
    | none =>
      -- The unit is made later, so its number was not in use before.
      have hnone : s.unit? file = none :=
        (hs.continues_apply op).unit?_eq_none ((hs.apply op).continues_after ops) hv hu
      rw [parsedBy_of_none hv, parseCount_of_none hv, parseCount_of_none hnone, List.length_nil]
      omega
    | some v =>
      cases (advances_apply hs.1 hs.2 op).1.changes file (by rw [hv]; rfl) with
      | same h =>
        rw [parsedBy_of_unparsed h, h.count, List.length_nil]
        omega
      | parse content h hreason =>
        rw [parsedBy_of_parsedAnew h, h.count, List.length_singleton]
        omega

/-! ## Changes of a unit -/

/-- Whether an operation replaces the content of a unit, or says that it changed. -/
def concerns (s : Session) (file : FileId) : Operation → Bool
  | .update path _ | .openFile path _ => (s.unitFor (Path.normalize path)).1 == file
  | .notify path => s.fileId? path == some file
  | .closeFile path => s.fileId? path == some file && (s.unit? file).any (·.overlay.isSome)
  | _ => false

/-- How often the content of a unit is replaced in a run, or said to have changed. -/
def ownChanges (file : FileId) : Session → List Operation → Nat
  | _, [] => 0
  | s, op :: ops => (if s.concerns file op then 1 else 0) + ownChanges file (s.apply op) ops

private theorem mem_dirty_update (h : file ∈ (s.update path content).2.dirty) :
    file ∈ s.dirty ∨ (s.unitFor (Path.normalize path)).1 = file := by
  have hdirty : (s.unitFor (Path.normalize path)).2.dirty = s.dirty := by rw [rest_unitFor]
  simp only [update] at h
  obtain h | ⟨h, -⟩ := mem_dirty_markContentStale_iff.mp h
  · refine .inl (hdirty ▸ ?_)
    split at h <;> exact h
  · exact .inr h.symm

private theorem mem_dirty_closeFile (h : file ∈ (s.closeFile path).dirty) :
    file ∈ s.dirty ∨
      s.fileId? path = some file ∧ (s.unit? file).any (·.overlay.isSome) = true := by
  unfold closeFile at h
  split at h
  · next closed hfind =>
    unfold clearOverlay at h
    split at h
    · next hoverlay =>
      obtain h | ⟨h, -⟩ := mem_dirty_markContentStale_iff.mp h
      · exact .inl h
      · subst h
        exact .inr ⟨hfind, hoverlay⟩
    · exact .inl h
  · exact .inl h

private theorem mem_dirty_notifyChanged_iff (h : file ∈ (s.notifyChanged path).dirty) :
    file ∈ s.dirty ∨ s.fileId? path = some file := by
  unfold notifyChanged at h
  split at h
  · next changed hfind =>
    obtain h | ⟨h, -⟩ := mem_dirty_markContentStale_iff.mp h
    · exact .inl h
    · exact .inr (h ▸ hfind)
  · exact .inl h

private theorem mem_dirty_dropUnit {dropped : FileId} (h : file ∈ (s.dropUnit dropped).dirty) :
    file ∈ s.dirty := by
  cases hu : s.unit? dropped with
  | none => rwa [dropUnit_of_none hu] at h
  | some u =>
    rw [dropUnit_of_some hu] at h
    exact (List.mem_filter.mp h).1

theorem mem_dirty_dropUnits {gone : List FileId} (h : file ∈ (gone.foldl dropUnit s).dirty) :
    file ∈ s.dirty := by
  induction gone generalizing s with
  | nil => exact h
  | cons dropped gone ih => exact mem_dirty_dropUnit (ih h)

private theorem dirty_unitsFor (s : Session) (paths : List String) :
    (s.unitsFor paths).2.dirty = s.dirty := by
  induction paths generalizing s with
  | nil => rfl
  | cons path paths ih =>
    have hfirst : (s.unitFor (Path.normalize path)).2.dirty = s.dirty := by rw [rest_unitFor]
    exact (ih _).trans hfirst

private theorem mem_dirty_apply (hs : s.Maintained) (h : file ∈ (s.apply op).dirty) :
    file ∈ s.dirty ∨ s.concerns file op = true := by
  cases op with
  | update path content => exact (mem_dirty_update h).imp_right fun h => by simpa [concerns] using h
  | openFile path content =>
    have hdirty : (s.openFile path content).2.dirty = (s.update path content).2.dirty := by
      unfold openFile
      dsimp only
      split <;> rfl
    have h : file ∈ (s.update path content).2.dirty := hdirty ▸ h
    exact (mem_dirty_update h).imp_right fun h => by simpa [concerns] using h
  | closeFile path =>
    exact (mem_dirty_closeFile h).imp_right fun h => by simpa [concerns] using h
  | notify path =>
    exact (mem_dirty_notifyChanged_iff h).imp_right fun h => by simpa [concerns] using h
  | remove path =>
    refine .inl ?_
    change file ∈ (s.removeFile path).2.dirty at h
    unfold removeFile at h
    split at h
    · exact mem_dirty_dropUnit h
    · exact h
  | setRoots paths => exact .inl (dirty_unitsFor s paths ▸ h)
  | collectGarbage => exact .inl (mem_dirty_dropUnits h)
  | setPolicy policy => exact .inl h
  | write path content => exact .inl h
  | delete path => exact .inl h
  | flush =>
    change file ∈ s.flush.dirty at h
    rw [hs.flush.2] at h
    exact nomatch h
  | ask question =>
    change file ∈ (s.asked question).dirty at h
    rw [(respected_fresh.asked hs.flush question).2] at h
    exact nomatch h

private def Bounded (s : Session) (file : FileId) (changes : Nat) : Prop :=
  s.parseCount file ≤ 1 + changes ∧ (file ∈ s.dirty → s.parseCount file ≤ changes)

private theorem Tracked.bounded_apply (hs : s.Tracked) (h : s.Bounded file changes)
    (op : Operation) :
    (s.apply op).Bounded file (changes + if s.concerns file op then 1 else 0) := by
  obtain ⟨hcount, hwaiting⟩ := h
  obtain ⟨hadvances, -, hparsing⟩ := advances_apply hs.1 hs.2 op
  cases hv : (s.apply op).unit? file with
  | none =>
    have hzero := parseCount_of_none hv
    exact ⟨by omega, fun _ => by omega⟩
  | some v =>
    have hsome : ((s.apply op).unit? file).isSome = true := by rw [hv]; rfl
    cases hadvances.changes file hsome with
    | same h =>
      refine ⟨by rw [h.count]; omega, fun hmem => ?_⟩
      rw [h.count]
      rcases mem_dirty_apply hs.1 hmem with hmem | hconcerns
      · have := hwaiting hmem
        omega
      · rw [if_pos hconcerns]
        omega
    | parse content h hreason =>
      refine ⟨?_, fun hmem => ?_⟩
      · rw [h.count]
        rcases hreason with hzero | hmem
        · omega
        · have := hwaiting hmem
          omega
      · -- An operation that parses leaves no unit waiting.
        rcases hparsing with hnone | hunparsed
        · rw [hnone] at hmem
          exact nomatch hmem
        · have hsame := (hunparsed file hsome).count
          rw [h.count] at hsame
          omega

private theorem Tracked.bounded_after (hs : s.Tracked) (h : s.Bounded file changes)
    (ops : List Operation) :
    (s.after ops).Bounded file (changes + ownChanges file s ops) := by
  induction ops generalizing s changes with
  | nil => exact h
  | cons op ops ih =>
    have hrest := ih (hs.apply op) (hs.bounded_apply h op)
    rwa [Nat.add_assoc] at hrest

private theorem tracked_new (options : Options) (files : FileStore) (hostPaths : List String) :
    (Session.new options files hostPaths).Tracked :=
  ⟨maintained_new options files hostPaths, fun _ _ hu => nomatch hu⟩

private theorem Tracked.after (hs : s.Tracked) (ops : List Operation) : (s.after ops).Tracked :=
  after_induct (fun _ op hs => hs.apply op) hs ops

/-- In every run, the contents that a unit is parsed from have different fingerprints from one parse to
the next; they are as many as the unit counts, and at most as many as its own changes and one more.
Whatever is done next, the unit is parsed at most once, because it never was or because it waits, and
then from a content with another fingerprint. -/
theorem parsed_only_if_changed (options : Options) (files : FileStore) (hostPaths : List String)
    (ops : List Operation) (file : FileId) :
    let start := Session.new options files hostPaths
    let s := start.after ops
    (parseLog file start ops).IsChain (fun a b => Text.fingerprint a ≠ Text.fingerprint b) ∧
      (∀ u, s.unit? file = some u → (parseLog file start ops).length = u.stats.parses ∧
        u.stats.parses ≤ 1 + ownChanges file start ops) ∧
      ∀ op u v, s.unit? file = some u → (s.apply op).unit? file = some v →
        v.stats.parses = u.stats.parses ∧ v.content = u.content ∨
        v.stats.parses = u.stats.parses + 1 ∧ (u.stats.parses = 0 ∨ file ∈ s.dirty) ∧
          ∃ content, v.content = some content ∧ ∀ old, u.content = some old →
            Text.fingerprint old ≠ Text.fingerprint content := by
  intro start s
  have hstart : start.Tracked := tracked_new options files hostPaths
  have hs : s.Tracked := hstart.after ops
  have hzero : start.parseCount file = 0 := rfl
  refine ⟨hstart.isChain_parseLog ops, fun u hu => ⟨?_, ?_⟩, fun op u v hu hv => ?_⟩
  · have hlength := hstart.length_parseLog ops hu
    rwa [hzero, Nat.zero_add] at hlength
  · have hbegin : start.Bounded file 0 := ⟨Nat.zero_le _, fun _ => Nat.le_refl _⟩
    have hcount := (hstart.bounded_after hbegin ops).1
    rwa [parseCount_eq hu, Nat.zero_add] at hcount
  · have hchange := (advances_apply hs.1 hs.2 op).1.changes file (by rw [hv]; rfl)
    cases hchange with
    | same h =>
      refine .inl ⟨?_, ?_⟩
      · rw [← parseCount_eq hv, ← parseCount_eq hu, h.count]
      · rw [← parsedText?_eq hv, ← parsedText?_eq hu, h.text]
    | parse content h hreason =>
      refine .inr ⟨?_, ?_, content, ?_, fun old hold => ?_⟩
      · rw [← parseCount_eq hv, ← parseCount_eq hu, h.count]
      · rwa [← parseCount_eq hu]
      · rw [← parsedText?_eq hv, h.text]
      · exact h.print old (by rw [parsedText?_eq hu, hold])

end Session
end LiveCheck
