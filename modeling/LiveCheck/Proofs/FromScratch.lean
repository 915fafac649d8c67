import LiveCheck.Proofs.CurrentTrees

/-!
# Sessions and new beginnings

A session that has seen many changes is compared with one that begins anew with the current
contents. The two have the same trees and syntax problems. They need not have the same names: what
`from m import *` brings into a unit is not always brought up to date.
-/

namespace LiveCheck

/-! ## Beginning anew -/

private def overlayAt? (path : String) (unit : Option SourceUnit) : Option String :=
  unit.bind fun u => if u.path = path then u.overlay else none

namespace FileStore

/-- Puts the overlays of units in the place of what their files hold. -/
def overlaid (files : FileStore) : List (Option SourceUnit) → FileStore
  | [] => files
  | none :: units => files.overlaid units
  | some u :: units =>
    match u.overlay with
    | none => files.overlaid units
    | some content => ⟨(files.overlaid units).files.insert u.path content⟩

private theorem read?_overlaid (files : FileStore) (units : List (Option SourceUnit))
    (path : String) :
    (files.overlaid units).read? path =
      (units.findSome? (overlayAt? path)).orElse fun _ => files.read? path := by
  induction units with
  | nil => rfl
  | cons entry units ih =>
    cases entry with
    | none => exact ih
    | some u =>
      rw [overlaid, List.findSome?_cons]
      by_cases hp : u.path = path
      · cases ho : u.overlay with
        | none => simpa [overlayAt?, ho] using ih
        | some content => simp [overlayAt?, hp, ho, read?]
      · have hnone : overlayAt? path (some u) = none := by simp [overlayAt?, hp]
        rw [hnone]
        cases ho : u.overlay with
        | none => exact ih
        | some content =>
          simp only [read?, Std.TreeMap.getElem?_insert, Std.compare_eq_iff_eq, hp, if_false]
          exact ih

end FileStore

namespace Session

/-- The contents that count, by path. -/
def currentFiles (s : Session) : FileStore := s.files.overlaid s.units.toList

/-- A session that begins with the current contents, under the same options and with the same
roots. -/
def anew (s : Session) (hostPaths : List String) : Session :=
  ((Session.new s.options s.currentFiles hostPaths).setRoots (s.roots.filterMap s.path?)).2

variable {texts late : List String} {s t : Session} {files : FileStore} {u : SourceUnit}
  {path content : String} {file : FileId}

private theorem mem_units : some u ∈ s.units.toList ↔ ∃ file, s.unit? file = some u := by
  rw [Array.mem_toList_iff, Array.mem_iff_getElem?]
  simp [unit?, Option.join_eq_some_iff]

private theorem overlayAt?_eq_some {unit : Option SourceUnit}
    (h : overlayAt? path unit = some content) :
    ∃ u, unit = some u ∧ u.path = path ∧ u.overlay = some content := by
  obtain ⟨u, hu, h⟩ := Option.bind_eq_some_iff.mp h
  split at h
  · next hp => exact ⟨u, hu, hp, h⟩
  · exact nomatch h

private theorem read?_currentFiles (hs : s.Indexed) (hu : s.unit? file = some u) :
    s.currentFiles.read? u.path = s.content? file := by
  -- The first overlay under the path is that of the unit.
  have hfirst : s.units.toList.findSome? (overlayAt? u.path) = u.overlay := by
    cases hfound : s.units.toList.findSome? (overlayAt? u.path) with
    | none =>
      have := List.findSome?_eq_none_iff.mp hfound (some u) (mem_units.mpr ⟨file, hu⟩)
      simpa [overlayAt?] using this.symm
    | some content =>
      obtain ⟨entry, hentry, hcontent⟩ := List.exists_of_findSome?_eq_some hfound
      obtain ⟨v, rfl, hp, hv⟩ := overlayAt?_eq_some hcontent
      obtain ⟨other, hother⟩ := mem_units.mp hentry
      obtain rfl := hs.eq hother hu hp
      obtain rfl := Option.some.inj (hother.symm.trans hu)
      exact hv.symm
  rw [currentFiles, FileStore.read?_overlaid, hfirst, content?, hu]
  rfl

private theorem Followed.currentFiles {waiting : List FileId} (hs : s.Followed texts late waiting)
    (h : s.currentFiles.read? path = some content) : content ∈ texts := by
  rw [Session.currentFiles, FileStore.read?_overlaid] at h
  cases hfound : s.units.toList.findSome? (overlayAt? path) with
  | none =>
    rw [hfound] at h
    exact hs.files path content h
  | some text =>
    rw [hfound] at h
    obtain rfl := Option.some.inj h
    obtain ⟨entry, hentry, htext⟩ := List.exists_of_findSome?_eq_some hfound
    obtain ⟨u, rfl, -, hu⟩ := overlayAt?_eq_some htext
    obtain ⟨file, hfile⟩ := mem_units.mp hentry
    exact (hs.units file u hfile).overlay _ hu

/-! ## Sessions without overlays -/

/-- The session has these files, and no unit has an overlay. -/
private structure Plain (files : FileStore) (s : Session) : Prop where
  orderly : s.Orderly
  files : s.files = files
  overlay : ∀ file u, s.unit? file = some u → u.overlay = none

private theorem Plain.content? (hs : s.Plain files) (hu : s.unit? file = some u) :
    s.content? file = files.read? u.path := by
  rw [Session.content?, hu, Option.bind_some, hs.overlay file u hu, hs.files]
  rfl

private theorem Sourced.overlay {v : SourceUnit} (h : Sourced s file v) (hs : s.Plain files) :
    v.overlay = none := by
  cases h with
  | same hu h => exact h.overlay.trans (hs.overlay file _ hu)
  | @parsed u content hu hc h =>
    rw [h]
    exact hs.overlay file u hu
  | unseen ht ho => exact ho

private theorem Plain.ofSourced (hs : s.Plain files) (ho : t.Orderly) (hf : t.files = s.files)
    (h : ∀ file v, t.unit? file = some v → Sourced s file v) : t.Plain files :=
  ⟨ho, hf.trans hs.files, fun file v hv => (h file v hv).overlay hs⟩

private theorem Plain.flush (hs : s.Plain files) : s.flush.Plain files := by
  refine flush_induct hs.orderly.1 (fun h => { h with }) ?_ ?_ ?_ hs
  · exact fun _ _ _ _ h hs => hs.ofSourced (h.orderly hs.orderly) h.files fun _ _ => h.sourced
  · intro _ _ h hs
    have he : EvalStep 0 _ _ := .quiet (.bind h)
    exact hs.ofSourced (he.orderly hs.orderly) (by rw [h.rest]) fun _ _ => h.sourced
  · intro _ _ _ h hs
    have ho := And.intro (h.tidy hs.orderly.1) (h.indexed hs.orderly.2)
    exact hs.ofSourced ho (by rw [h.rest]) fun _ _ => h.sourced

private theorem respected_plain : Query.Respected (Plain files) where
  flush _ hs := hs.flush
  evaluate s hs := by
    obtain ⟨slack, hc⟩ := hs.orderly.1.exists_coherent
    refine ⟨slack, hc, fun t ht => ht.steps.induct (fun _ _ h hs => ?_) hs⟩
    exact hs.ofSourced (h.orderly hs.orderly) (by rw [h.rest]) fun _ _ => h.sourced
  check s file hs hb := hs.ofSourced (hs.orderly.markChecked hb) rfl fun _ _ => sourced_markChecked
  register _ _ hs := { hs with }

/-! ## What a new beginning agrees with -/

private theorem plain_unitsFor (hs : s.Plain files) (paths : List String) :
    (s.unitsFor paths).2.Plain files := by
  induction paths generalizing s with
  | nil => exact hs
  | cons path paths ih =>
    have ho : (s.unitFor (Path.normalize path)).2.Orderly :=
      ⟨hs.orderly.1.unitFor _, Indexed.unitFor _ hs.orderly.2⟩
    have hfiles : (s.unitFor (Path.normalize path)).2.files = s.files := by rw [rest_unitFor]
    exact ih (hs.ofSourced ho hfiles fun _ _ => sourced_unitFor)

private theorem plain_anew (s : Session) (hostPaths : List String) :
    (s.anew hostPaths).Plain s.currentFiles := by
  have hnew : (Session.new s.options s.currentFiles hostPaths).Plain s.currentFiles :=
    ⟨orderly_new _ _ _, rfl, fun _ _ hu => nomatch hu⟩
  have h := plain_unitsFor hnew (s.roots.filterMap s.path?)
  exact { h with }

private theorem Distinguished.mono {texts' : List String} (hd : Distinguished texts)
    (h : ∀ text ∈ texts', text ∈ texts) : Distinguished texts' :=
  fun a ha b hb => hd a (h a ha) b (h b hb)

private theorem treesCurrent_anew (hd : Distinguished texts) (hs : s.Followed texts late [])
    (hostPaths : List String) (question : Question) :
    ((s.anew hostPaths).asked question).TreesCurrent := by
  have hmem : ∀ text ∈ contentsOf s.currentFiles [], text ∈ texts := by
    intro text htext
    rw [contentsOf, List.filterMap_nil, List.append_nil] at htext
    obtain ⟨entry, hentry, hcontent⟩ := List.mem_filterMap.mp htext
    have hread : s.currentFiles.read? entry.1 = some text := by
      rw [FileStore.read?, Option.join_eq_some_iff, ← hcontent]
      exact Std.TreeMap.mem_toList_iff_getElem?_eq_some.mp hentry
    exact hs.currentFiles hread
  have hd := hd.mono hmem
  let start := Session.new s.options s.currentFiles hostPaths
  have hnew : start.Followed (contentsOf s.currentFiles []) [] start.dirty :=
    followed_new s.options s.currentFiles hostPaths []
  have hroots : (s.anew hostPaths).Followed (contentsOf s.currentFiles []) []
      (s.anew hostPaths).dirty :=
    (edits_setRoots start (s.roots.filterMap s.path?)).induct
      (P := fun s => s.Followed _ [] s.dirty) (fun _ _ h => h.followed) hnew
  exact (hroots.asked hd question).1.treesCurrent

/-- In every run in which no two contents have the same fingerprint, once the session was told of
all changes behind its back, the trees and syntax problems behind a question are those of a session
that begins anew, whatever that one is asked. -/
theorem tree_eq_anew (options : Options) (files : FileStore) (hostPaths : List String)
    (ops : List Operation) (hd : Distinguished (contentsOf files ops)) (hlate : latePaths ops = [])
    (question question' : Question) :
    let t := ((Session.new options files hostPaths).after ops).asked question
    let t' := (t.anew hostPaths).asked question'
    ∀ file u file' u', t.unit? file = some u → t'.unit? file' = some u' → u'.path = u.path →
      u.tree.isSome = true → u'.tree.isSome = true →
        u'.tree = u.tree ∧ u'.syntaxReports = u.syntaxReports := by
  intro t t' file u file' u' hu hu' hp htree htree'
  have ht : t.Followed (contentsOf files ops) [] [] := by
    rw [← hlate]
    have hnew := followed_new options files hostPaths ops
    exact ((hnew.after hd (content?_mem_contentsOf files)).asked hd question).1
  obtain ⟨content, hc, -, hparse, hreports⟩ := ht.treesCurrent file u hu htree
  have ht' := treesCurrent_anew hd ht hostPaths question'
  obtain ⟨content', hc', -, hparse', hreports'⟩ := ht' file' u' hu' htree'
  have hplain : t'.Plain t.currentFiles :=
    respected_plain.asked (plain_anew t hostPaths).flush question'
  have hsame : content' = content := by
    rw [hplain.content? hu', hp, read?_currentFiles ht.orderly.2 hu, hc] at hc'
    exact (Option.some.inj hc').symm
  rw [hparse, hparse', hreports, hreports', hp, hsame]
  exact ⟨rfl, rfl⟩

/-! ## What it does not agree with -/

/-- The type of a symbol, as text. -/
def symbolText (s : Session) (path name : String) : Option String :=
  (s.fileId? path).bind fun file =>
    match (Query.typeOfSymbol file name).run s with
    | (.ok (some type), t) => some (t.types.format type)
    | _ => none

/-- A new beginning finds names that the session does not find. In the first run, a unit is bound
again while the module that it takes all names from still has its old names. In the second one, a
unit whose module changed is taken for up to date because its own content is replaced by the same
text. -/
theorem symbolText_ne_anew :
    (let files := FileStore.ofList
        [("a.py", "from b import *\n"), ("b.py", "from c import *\n"), ("c.py", "x = 1\n")]
      let s := (Session.new {} files []).after
        [.setRoots ["a.py", "b.py", "c.py"], .ask (.typeOfSymbol 0 "x"),
          .update "c.py" "y = 1\n", .update "a.py" "from b import *\n\n"]
      s.symbolText "a.py" "y" = none ∧ (s.anew []).symbolText "a.py" "y" = some "int") ∧
    (let files := FileStore.ofList [("a.py", "from b import *\n"), ("b.py", "x = 1\n")]
      let s := (Session.new {} files []).after
        [.setRoots ["a.py", "b.py"], .ask (.typeOfSymbol 0 "x"), .update "b.py" "y = 1\n",
          .ask (.typeOfSymbol 1 "y"), .update "a.py" "from b import *\n"]
      s.symbolText "a.py" "y" = none ∧ (s.anew []).symbolText "a.py" "y" = some "int") := by
  decide +kernel

end Session
end LiveCheck
