import LiveCheck.Proofs.FirstOccurrences
import LiveCheck.Proofs.Types.Hierarchy

/-!
# The order in which classes are searched

The classes above a class are searched on one way up after the other, from the first base to the
last. All these ways share one list of the classes that were met, and a way that comes to one of
them is not followed any further. Nothing gets lost: the order is that of the ways up themselves,
each class where it is first visited, and `object` behind all others. This is so for bases that go
in circles or join again as well, as long as the classes are no more than the search goes up.
-/

namespace LiveCheck

variable {h : Hierarchy} {root cls sup : ClassKey} {met path rest classes : List ClassKey}
  {fuel limit : Nat}

/-! ## Ways up -/

private theorem length_removeAll_lt (hcls : cls ∈ classes) :
    (classes.removeAll [cls]).length < classes.length :=
  List.length_filter_lt_length_iff_exists.mpr ⟨cls, hcls, by simp⟩

private theorem mem_removeAll_singleton {c : ClassKey} :
    c ∈ classes.removeAll [cls] ↔ c ∈ classes ∧ c ≠ cls := by
  simp [List.removeAll]

/-- The classes on the ways up from a class, a class in front of its bases and the ways over one
base in front of those over the next. A way up goes from base to base among `classes`, and it ends
where it would return to a class on it. -/
def ascents (h : Hierarchy) (classes : List ClassKey) (cls : ClassKey) : List ClassKey :=
  if _hcls : cls ∈ classes then
    cls :: (directBases h cls).flatMap (ascents h (classes.removeAll [cls]))
  else []
termination_by classes.length
decreasing_by exact length_removeAll_lt ‹_›

private theorem ascents_of_mem (hcls : cls ∈ classes) : ascents h classes cls =
    cls :: (directBases h cls).flatMap (ascents h (classes.removeAll [cls])) := by
  rw [ascents, dif_pos hcls]

private theorem ascents_of_notMem (hcls : cls ∉ classes) : ascents h classes cls = [] := by
  rw [ascents, dif_neg hcls]

private theorem Exhausted.mem_of_mem_ascents (hmet : Exhausted h path met)
    (hrest : ∀ c ∈ rest, c ∉ path)
    (hcls : cls ∈ met ∨ cls = .object) (hsup : sup ∈ ascents h rest cls) :
    sup ∈ met ∨ sup = .object := by
  induction rest, cls using ascents.induct with
  | case1 rest cls hmem ih =>
    rw [ascents_of_mem hmem, List.mem_cons, List.mem_flatMap] at hsup
    rcases hsup with rfl | ⟨base, hbase, hsup⟩
    · exact hcls
    · refine ih base (fun c hc => hrest c (mem_removeAll_singleton.mp hc).1) ?_ hsup
      rcases hcls with hcls | rfl
      · exact hmet cls hcls (hrest cls hmem) base hbase
      · exact absurd hbase not_hasBase_object
  | case2 rest cls hmem =>
    rw [ascents_of_notMem hmem] at hsup
    exact absurd hsup List.not_mem_nil

/-- The classes above `root`: on the path of a search, or among those where it has not gone up. -/
private structure Remaining (h : Hierarchy) (root : ClassKey) (path rest : List ClassKey) :
    Prop where
  apart : ∀ c ∈ rest, c ∉ path
  all : ∀ c, Below h root c → c ≠ .object → c ∈ path ∨ c ∈ rest

private theorem remaining_nil (hclasses : ∀ c, Below h cls c → c ≠ .object → c ∈ classes) :
    Remaining h cls [] classes :=
  ⟨fun _ _ => List.not_mem_nil, fun c hc hproper => .inr (hclasses c hc hproper)⟩

private theorem Remaining.step (hr : Remaining h root path rest) (cls : ClassKey) :
    Remaining h root (cls :: path) (rest.removeAll [cls]) where
  apart := by
    intro c hc
    obtain ⟨hc, hother⟩ := mem_removeAll_singleton.mp hc
    exact List.not_mem_cons_of_ne_of_not_mem hother (hr.apart c hc)
  all := by
    intro c hc hproper
    by_cases hcls : c = cls
    · exact .inl (hcls ▸ .head _)
    · exact (hr.all c hc hproper).imp (.tail _) fun hc => mem_removeAll_singleton.mpr ⟨hc, hcls⟩

/-! ## First visits -/

/-- The classes of a list where they are first visited, without `object`. -/
def firstVisits (visits : List ClassKey) : List ClassKey :=
  (visits.filter (· != ClassKey.object)).eraseDups

private theorem firstVisits_append (visits more : List ClassKey) :
    firstVisits (visits ++ more) = (firstVisits visits ++ firstVisits more).eraseDups := by
  rw [firstVisits, firstVisits, firstVisits, List.filter_append, eraseDups_append_eraseDups]

private theorem firstVisits_append_of_subset {visits more : List ClassKey}
    (hmore : ∀ c ∈ more, c ∈ visits ∨ c = .object) :
    firstVisits (visits ++ more) = firstVisits visits := by
  have hnone : (more.filter (· != ClassKey.object)).removeAll
      (visits.filter (· != ClassKey.object)) = [] := by
    refine List.filter_eq_nil_iff.mpr fun c hc => ?_
    obtain ⟨hc, hne⟩ := List.mem_filter.mp hc
    simpa [bne_iff_ne.mp hne] using (hmore c hc).resolve_right (bne_iff_ne.mp hne)
  rw [firstVisits, List.filter_append, List.eraseDups_append, hnone, List.eraseDups_nil,
    List.append_nil, firstVisits]

private theorem Exhausted.firstVisits_append_ascents (hmet : Exhausted h path met)
    (hrest : ∀ c ∈ rest, c ∉ path) (hcls : cls ∈ met ∨ cls = .object) :
    firstVisits (met ++ ascents h rest cls) = firstVisits met :=
  firstVisits_append_of_subset fun _ hc => hmet.mem_of_mem_ascents hrest hcls hc

private theorem firstVisits_foldl {search : List ClassKey → ClassKey → List ClassKey}
    {visits : ClassKey → List ClassKey} (hkept : ∀ met b, met <+: search met b)
    (hsearch : ∀ met b, HasBase h cls b → path ⊆ met → Exhausted h path met →
      Exhausted h path (search met b) ∧
        firstVisits (search met b) = firstVisits (met ++ visits b))
    (hmet : Exhausted h path met) (hsub : path ⊆ met) (bases : List ClassKey)
    (hbases : ∀ b ∈ bases, HasBase h cls b) :
    firstVisits (bases.foldl search met) = firstVisits (met ++ bases.flatMap visits) := by
  induction bases generalizing met with
  | nil => rw [List.foldl_nil, List.flatMap_nil, List.append_nil]
  | cons b bases ih =>
    obtain ⟨hfirst, hvisits⟩ := hsearch met b (hbases b (.head _)) hsub hmet
    have hrest := ih hfirst (fun _ hc => (hkept met b).subset (hsub hc))
      fun b' hb' => hbases b' (.tail _ hb')
    rw [List.foldl_cons, hrest, firstVisits_append, hvisits, ← firstVisits_append,
      List.append_assoc, List.flatMap_cons]

private theorem firstVisits_collectBases (hchains : ChainsWithin h root limit)
    (hp : Climbing h root path met) (habove : Below h root cls)
    (hlink : ∀ below ∈ path.head?, HasBase h below cls) (hroom : limit ≤ fuel + path.length)
    (hmet : Exhausted h path met) (hr : Remaining h root path rest) :
    firstVisits (collectBases h fuel met cls) = firstVisits (met ++ ascents h rest cls) := by
  induction fuel generalizing path met cls rest with
  | zero =>
    have hcls := (exhausted_collectBases hchains hp habove hlink hroom hmet).2
    exact (hmet.firstVisits_append_ascents hr.apart hcls).symm
  | succ fuel ih =>
    rw [collectBases]
    split
    · next hcontains =>
      have hcls := List.contains_iff_mem.mp hcontains
      exact (hmet.firstVisits_append_ascents hr.apart (.inl hcls)).symm
    · next hcontains =>
      have hnew : cls ∉ met := fun hmem => hcontains (List.contains_iff_mem.mpr hmem)
      by_cases hne : cls = .object
      · subst hne
        rw [hmet.firstVisits_append_ascents hr.apart (.inr rfl)]
        exact firstVisits_append_of_subset fun c hc => .inr (List.mem_singleton.mp hc)
      · have hmem : cls ∈ rest := (hr.all cls habove hne).resolve_left fun h => hnew (hp.met h)
        have hstep := hp.step hnew hne habove hlink
        have hroom' : limit ≤ fuel + (cls :: path).length := by
          rw [List.length_cons]
          omega
        have hlink' {b : ClassKey} (hb : HasBase h cls b) :
            ∀ below ∈ (cls :: path).head?, HasBase h below b :=
          fun below hbelow => Option.some.inj hbelow ▸ hb
        have hfold := firstVisits_foldl (isPrefix_collectBases h fuel)
          (fun met b hb hsub hmet =>
            ⟨(exhausted_collectBases hchains (hstep.congr hsub) (habove.tail hb) (hlink' hb) hroom'
                hmet).1,
              ih (hstep.congr hsub) (habove.tail hb) (hlink' hb) hroom' hmet (hr.step cls)⟩)
          (hmet.step cls) hstep.met (directBases h cls) fun _ hb => hb
        rw [hfold, ascents_of_mem hmem, List.append_assoc, List.singleton_append]

private theorem nodup_collectBases (h : Hierarchy) (fuel : Nat) (hmet : met.Nodup)
    (cls : ClassKey) :
    (collectBases h fuel met cls).Nodup := by
  induction fuel generalizing met cls with
  | zero => exact hmet
  | succ fuel ih =>
    rw [collectBases]
    split
    · exact hmet
    · next hcontains =>
      have hnew : cls ∉ met := fun hmem => hcontains (List.contains_iff_mem.mpr hmem)
      have hmet' : (met ++ [cls]).Nodup := by
        simpa [List.nodup_append, hmet] using fun c hc => ne_of_mem_of_not_mem hc hnew
      exact List.foldlRecOn _ _ hmet' fun met hmet b _ => ih hmet b

/-! ## Search orders -/

/-- **The search order of a class.** Let no more classes stand above a class than the search goes
up, `object` not counted, in circles or not. Then the search ends by itself, and the order has the
classes where the ways up from the class first visit them, and `object` behind them: the class
itself first, none twice, and exactly what stands above it, which are the classes it is a subclass
of. -/
theorem resolutionOrder_eq_firstVisits
    (hclasses : ∀ c, Below h cls c → c ≠ .object → c ∈ classes)
    (hfew : classes.length ≤ Limits.resolutionOrder) :
    (∀ depth, classes.length ≤ depth →
      (collectBases h depth [] cls).filter (· != .object) = firstVisits (ascents h classes cls)) ∧
    resolutionOrder h cls = firstVisits (ascents h classes cls) ++ [.object] ∧
    (resolutionOrder h cls).head? = some cls ∧ (resolutionOrder h cls).Nodup ∧
    (∀ c, c ∈ resolutionOrder h cls ↔ Below h cls c ∨ c = .object) ∧
    ∀ sup, isSubclass h cls sup = true ↔ Below h cls sup ∨ sup = .object := by
  have hchains := chainsWithin_length hclasses
  have hvisits (depth : Nat) (hdepth : classes.length ≤ depth) :
      (collectBases h depth [] cls).filter (· != .object) =
        firstVisits (ascents h classes cls) := by
    have hnodup := (nodup_collectBases h depth .nil cls).filter (· != .object)
    have hfirst := firstVisits_collectBases hchains (climbing_nil h cls []) .refl nofun hdepth nofun
      (remaining_nil hclasses)
    rw [← eraseDups_of_nodup hnodup, ← List.nil_append (ascents h classes cls), ← hfirst,
      firstVisits]
  have horder : resolutionOrder h cls = firstVisits (ascents h classes cls) ++ [.object] := by
    rw [resolutionOrder, hvisits _ hfew]
  have hshort : ChainsWithin h cls Limits.resolutionOrder :=
    fun chain hchain hnodup hproper habove =>
      (hchains chain hchain hnodup hproper habove).trans hfew
  refine ⟨hvisits, horder, ?_, ?_, fun c => mem_resolutionOrder hshort,
    fun sup => hshort.isSubclass_iff⟩
  · obtain ⟨rest, hrest⟩ := resolutionOrder_eq_cons h cls
    rw [hrest, List.head?_cons]
  · rw [horder]
    refine List.nodup_append.mpr ⟨nodup_eraseDups _, List.nodup_singleton _, ?_⟩
    rintro c hc _ hobject rfl
    obtain rfl := List.mem_singleton.mp hobject
    simp [firstVisits] at hc

private theorem mem_of_below (hclosed : ∀ c ∈ classes, ∀ base ∈ directBases h c, base ∈ classes)
    (hcls : cls ∈ classes) (hsup : Below h cls sup) : sup ∈ classes := by
  induction hsup with
  | refl => exact hcls
  | tail _ hbase ih => exact hclosed _ ih _ hbase

/-- The declared class with a number. -/
def numbered (index : DeclIndex) : ClassKey := .declared ⟨⟨0, index⟩, "C"⟩

/-- Class `3` has the bases `1` and `2`, both of them have the base `0`, and this has the base `3`
and is a number besides. -/
def circularDiamond : Hierarchy := fun cls =>
  match cls.decl.index with
  | 3 => [numbered 1, numbered 2]
  | 0 => [numbered 3, .builtin .int]
  | _ => [numbered 0]

/-- A diamond whose bases go in a circle. -/
theorem resolutionOrder_eq_firstVisits_circularDiamond :
    (resolutionOrder circularDiamond (numbered 3)).head? = some (numbered 3) ∧
      (resolutionOrder circularDiamond (numbered 3)).Nodup ∧
      resolutionOrder circularDiamond (numbered 3) =
        [numbered 3, numbered 1, numbered 0, .builtin .int, numbered 2, .object] := by
  have habove : ∀ c, Below circularDiamond (numbered 3) c → c ≠ .object →
      c ∈ [numbered 0, numbered 1, numbered 2, numbered 3, .builtin .int, .object] :=
    fun c hc _ => mem_of_below (by decide) (by decide) hc
  obtain ⟨-, -, hhead, hnodup, -⟩ := resolutionOrder_eq_firstVisits habove (by decide)
  exact ⟨hhead, hnodup, by decide⟩

end LiveCheck
