import LiveCheck.Proofs.CompleteResults
import LiveCheck.Proofs.Evaluation.Preparation

/-!
# Comparisons find their classes

Whatever is evaluated, what was noted about bases stays noted, and every search for bases that
begins comes to its end. When types are compared, the bases of all classes that the comparison may ask for
have been noted, those of most classes for good; only the bases of a class that are being evaluated
at that moment count as none. A type that comes back from a table of types that is gone may break
this, for what it stands for may change while bases are searched for.
-/

namespace LiveCheck

open Session Evaluation Discipline

namespace Evaluation

variable {slack limit n : Nat} {keys : List EvalKey} {answers : List (EvalKey × TypeId)} {α : Type}
  {R : α → Nat → Prop} {st : EvalState} {key : EvalKey} {ask : Ask}

private theorem admits_noting
    (hask : ∀ n key, (noting slack limit keys answers).Sound n (ask key) TypeId.Known) :
    Admits slack (noting slack limit keys answers) ask :=
  have h : Admits slack (access slack) fun _ => return .unknown := admits_nothing
  { size := fun _ => rfl
    closed := fun _ hst => hst.1.coherent.closed
    asks := hask
    makes := fun hm => sound_noting (h.makes hm) (abiding_withTypes _)
    binds := fun n file => sound_noting (h.binds n file) (abiding_bound? file)
    imports := fun n file dotted level => sound_noting (h.imports n file dotted level)
      (abiding_withSession (keepsBound_importFrom · file dotted level))
    enters := fun n package name => sound_noting (h.enters n package name)
      (abiding_withSession (keepsBound_submodule · package name))
    reports := fun n file d => sound_noting (h.reports n file d) (abiding_report file d)
    takes := fun n key => sound_noting (h.takes n key)
      (abiding_aside (fun _ => rfl) (fun _ => rfl) fun _ => rfl)
    bases := fun _ cls _ hst _ => (outcome_declaredBases hask hst cls).1
    compares := fun hsource htarget _ hst hn => outcome_isAssignable hask hst
      (TypeId.lasting_known _ _ _ hn hsource) (TypeId.lasting_known _ _ _ hn htarget)
    strays := fun hR => sound_noting (h.strays hR)
      (abiding_aside (fun _ => rfl) (fun _ => rfl) fun _ => rfl) }

/-! ## Evaluations -/

private theorem abiding_push (key : EvalKey) : Abiding (push key) :=
  abiding_aside (fun _ => rfl) (fun _ => rfl) fun _ => rfl

private theorem abiding_pop (position : Nat) : Abiding (pop position) :=
  abiding_aside (session_pop position) (fun st => by unfold pop; split <;> rfl)
    fun st => by unfold pop; split <;> rfl

private theorem noting_of_evaluation {r : α × EvalState}
    (hst : st.Accounts slack) (h : (evaluation slack limit keys answers).Outcome st R r)
    (ha : st.Abides r.2) : (noting slack limit keys answers).Outcome st R r :=
  ⟨⟨h.ok, hst.abides ha⟩, ⟨h.step, ha.keeps⟩, h.grows, h.result⟩

private theorem noting_computation (hfits : Fits limit keys answers)
    (hst : (noting slack limit keys answers).Ok st) (hnew : Unsettled keys key st.session)
    {m : EvalM TypeId} (hrun : (noting slack limit (key :: keys) answers).Outcome (push key st).2
      TypeId.Known (m (push key st).2)) :
    (noting slack limit keys answers).Outcome st TypeId.Known (computation key m st) := by
  have hout := outcome_computation hfits hst.1 hnew (outcome_of_noting hrun)
  let computed := m (push key st).2
  have hkeeps : st.Keeps computed.2 := (abiding_push key st).keeps.trans hrun.step.2
  have hend : Abiding (do
      let lowest ← pop (st.stack.length + 1)
      let type ← finish key computed.1
      if st.stack.length + 1 ≤ lowest then remember key type
      return type) := by
    refine (abiding_pop _).bind fun lowest => (abiding_finish key _).bind fun type => ?_
    exact .ite ((abiding_remember key type).bind fun _ => .pure _) (.pure _)
  have habides := hend computed.2
  exact ⟨⟨hout.ok, hrun.ok.2.abides habides⟩, ⟨hout.step, hkeeps.trans habides.keeps⟩, hout.grows,
    hout.result⟩

private theorem noting_rules (hfits : Fits limit keys answers)
    (hfits' : Fits limit (key :: keys) answers)
    (hkey : key ∉ keys) (hask : ∀ answers', Fits limit (key :: keys) answers' → ∀ n key',
      (noting slack limit (key :: keys) answers').Sound n (ask key') TypeId.Known) :
    (noting slack limit (key :: keys) answers).Sound n (compute ask key) TypeId.Known := by
  have hnew := hfits.new hkey
  refine sound_compute (admits_noting (hask answers hfits')) key fun n type htype => ?_
  refine ⟨noting slack limit (key :: keys) ((key, type) :: answers),
    admits_noting (hask _ (hfits'.answer type)), fun hm st hst hn => ?_⟩
  have hknown := TypeId.lasting_known type n _ hn htype
  have hrun := hm _ ⟨inOrder_setProvisional hst.1 hnew hknown, hst.2.abides ⟨rfl, rfl, .refl _⟩⟩ hn
  have hout := outcome_withProvisional hnew (outcome_of_noting hrun)
  have habides {st st' : EvalState} (hs : st'.session = st.session)
      (hb : st'.classBases = st.classBases) (hc : st'.comparisons = st.comparisons) :
      st.Abides st' := ⟨hb, hc, hs ▸ .refl _⟩
  have hkeeps := hrun.step.2
  exact ⟨⟨hout.ok, hrun.ok.2.abides (habides rfl rfl rfl)⟩,
    ⟨hout.step, { hkeeps with }⟩, hout.grows, hout.result⟩

-- One level of the engine, as for the discipline of all evaluations.
private theorem noting_level {room : Nat} (hfits : Fits limit keys answers)
    (hroom : room + keys.length = limit)
    (hrules : ∀ room' key, room = room' + 1 → key ∉ keys →
      (noting slack limit (key :: keys) answers).Sound 0 (compute (evaluateBy compute room') key)
        TypeId.Known)
    (key : EvalKey) :
    (noting slack limit keys answers).Sound n (evaluateBy compute room key) TypeId.Known := by
  intro st hst hn
  have hmemo := sound_noting (sound_memo? key) (abiding_memo? key) st hst hn
  have hunknown := fun hidle (hnone : (memo? key st).1 = none) =>
    not_knows_of_memo? hst.1.access hidle hnone
  rcases hr : memo? key st with ⟨found, st'⟩
  rw [hr] at hmemo hunknown
  cases found with
  | some type =>
    rw [evaluateBy_of_memo? _ _ hr]
    exact ⟨hmemo.ok, hmemo.step, hmemo.grows, hmemo.result type rfl⟩
  | none =>
    have hst' : (noting slack limit keys answers).Ok st' := hmemo.ok
    cases hplace : position? st'.stack key with
    | some place =>
      rw [evaluateBy_reentered _ _ hr hplace]
      have hnote := noting_of_evaluation hst'.2 (outcome_noteReentry hfits hst'.1 hplace)
        ⟨rfl, rfl, .refl _⟩
      refine hmemo.trans (hnote.trans ?_)
      exact sound_noting (sound_placeholder key) (abiding_placeholder key) _ hnote.ok
        (Nat.le_refl _)
    | none =>
      have hkey : key ∉ keys := hst'.1.stacked ▸ position?_eq_none_iff.mp hplace
      have hidle : st'.session.inProgress = _ := hmemo.step.1.performs.completes.inProgress
      have hnew : Unsettled keys key st'.session :=
        ⟨hkey, fun hidle' => hunknown (hidle.symm.trans hidle') rfl⟩
      cases room with
      | zero =>
        rw [evaluateBy_zero _ hr hplace]
        have hdeep := sound_tooDeep hfits (by omega) key st' hst'.1 (Nat.le_refl _)
        exact hmemo.trans (noting_of_evaluation hst'.2 hdeep (abiding_tooDeep key st'))
      | succ room =>
        rw [evaluateBy_succ _ _ hr hplace]
        have hpush : (noting slack limit (key :: keys) answers).Ok (push key st').2 :=
          ⟨inOrder_push hfits hst'.1 (by omega) hkey, hst'.2.abides (abiding_push key st')⟩
        have hrun := hrules room key rfl hkey _ hpush (Nat.zero_le _)
        exact hmemo.trans (noting_computation hfits hst' hnew hrun)

private theorem noting_evaluateBy {room : Nat} (hfits : Fits limit keys answers)
    (hroom : room + keys.length = limit) (key : EvalKey) :
    (noting slack limit keys answers).Sound n (evaluateBy compute room key) TypeId.Known := by
  induction room generalizing keys answers key n with
  | zero => exact noting_level hfits hroom (fun _ _ h => absurd h (Nat.zero_ne_add_one _)) key
  | succ room ih =>
    refine noting_level hfits hroom (fun room' key' h hkey => ?_) key
    obtain rfl := Nat.succ.inj h
    refine noting_rules hfits (hfits.cons (by omega) hkey) hkey fun answers' hfits' n key'' => ?_
    refine ih hfits' ?_ key''
    rw [List.length_cons]
    omega

private theorem noting_evaluate (key : EvalKey) :
    (noting slack limit [] []).Sound n (evaluate key) TypeId.Known := by
  refine sound_get fun st hst hn => ?_
  rw [hst.1.depth]
  exact noting_evaluateBy (fits_nil limit) rfl key st hst hn

private theorem admits_noting_evaluate : Admits slack (noting slack limit [] []) evaluate :=
  admits_noting fun _ key => noting_evaluate key

private theorem noting_start {s : Session} (hs : s.Coherent slack) :
    (noting slack s.options.maxEvaluationDepth [] []).Ok { session := s } where
  left := inOrder_start hs
  right :=
    { orderly := trivial
      grounded := fun decl _ _ hb => by simp [EvalState.bases?, BaseNotes.bases?] at hb
      past := List.forall_mem_nil _
      prepared := fun _ => List.forall_mem_nil _ }

end Evaluation

/-! ## Every run -/

private theorem Comparison.IsPrepared.holds_eq {c : Comparison} (hc : c.IsPrepared) {h : Hierarchy}
    (hh : ∀ cls bases, c.notes.bases? cls.decl = some bases → h cls = bases) :
    c.types.assignable h c.source c.target = c.holds := by
  refine (TypeTable.assignable_hierarchy fun cls hcls => ?_).symm
  obtain ⟨bases, hbases⟩ := hc cls hcls
  rw [hh cls bases hbases, BaseNotes.hierarchy]
  exact congrArg (Option.getD · []) hbases

private theorem Inquiry.outcome_noting {slack : Nat} {s : Session} (hs : s.Coherent slack)
    (inquiry : Inquiry) : (inquiry.outcome s).Accounts slack ∧
      ∀ decl, ¬ (inquiry.outcome s).classBases.IsFinding decl := by
  have h := inquiry.sound (@admits_noting_evaluate slack s.options.maxEvaluationDepth)
    { session := s } (noting_start hs) (Nat.zero_le _)
  refine ⟨h.ok.2, fun decl hfinding => ?_⟩
  exact Nat.zero_ne_one ((h.step.2.finding decl).mp hfinding)

/-- In every run, whatever a question has evaluated: no search for bases is left unfinished, and
whenever types were compared, the bases that were noted by then are those that were found in the
end, apart from those of classes whose bases were being evaluated at that moment, which counted as
having none. If all flushes were steady, then each comparison found noted the bases of all classes
that it may have asked for, and so its result did not depend on what counts for a class that is not
noted. -/
theorem comparisons_prepared (options : Options) (files : FileStore) (hostPaths : List String)
    (ops : List Operation) {s : Session}
    (hs : ((Session.new options files hostPaths).after ops).Passes s) (inquiry : Inquiry) :
    let start := Session.new options files hostPaths
    let st := inquiry.outcome s
    (∀ decl, ¬ st.classBases.IsFinding decl) ∧
      (∀ c ∈ st.comparisons, ∀ decl bases, c.notes.bases? decl = some bases →
        c.notes.IsFinding decl ∧ bases = [] ∨ st.bases? decl = some bases) ∧
      ((Era.start start).Steady ops → (start.after ops).Steady ((Era.start start).after ops).since →
        ∀ c ∈ st.comparisons,
          (∀ cls, c.Consults cls → ∃ bases, c.notes.bases? cls.decl = some bases) ∧
          ∀ h : Hierarchy, (∀ cls bases, c.notes.bases? cls.decl = some bases → h cls = bases) →
            c.types.assignable h c.source c.target = c.holds) := by
  intro start st
  have horderly : (start.after ops).Orderly := orderly_after options files hostPaths ops
  have hs' : s.Orderly := hs.respected respected_orderly horderly.flush
  obtain ⟨slack, hcoherent⟩ := hs'.1.exists_coherent
  obtain ⟨haccounts, hfinished⟩ := inquiry.outcome_noting hcoherent
  refine ⟨hfinished, fun c hc decl bases hbases => ?_, fun hsteady hnext c hc => ?_⟩
  · exact haccounts.orderly.bases?_of_isSuffix (haccounts.past c hc) hbases
  · obtain ⟨o, hacc⟩ := exists_accounted_after options files hostPaths ops hsteady
    obtain ⟨o', -, hanswering⟩ := hs.respected
      (respected_answers ((start.after ops).flush, o)) ⟨o, .refl, hacc.answering hnext⟩
    obtain ⟨haccounts, -⟩ := inquiry.outcome_noting hanswering.accounted.coherent
    have hprepared := haccounts.prepared rfl c hc
    exact ⟨hprepared, fun h hh => hprepared.holds_eq hh⟩

/-- The base of a class is the result of a call whose argument is an instance of the class. When the
argument is compared, the class counts as having no bases; when the instance is returned, its base
is noted for good. -/
theorem comparisons_prepared_of_circle :
    let files := FileStore.ofList [("a.py", "class A:\n    pass\ndef f(p: A):\n    return A\n" ++
      "def g() -> A:\n    return C()\nclass C(f(C())):\n    pass\n")]
    let start := Session.new {} files []
    let ops : List Operation := [.setRoots ["a.py"]]
    let s := ((start.after ops).flush.ensureBound 0).2
    let st := (Inquiry.ofFile 0).outcome s
    (Era.start start).Steady ops ∧ (start.after ops).Steady ((Era.start start).after ops).since ∧
      st.comparisons.map (fun c => (c.source, c.target, c.holds, c.notes.bases? ⟨0, 4⟩)) =
        [(16, 12, true, some [.declared ⟨⟨0, 0⟩, "A"⟩]), (16, 12, false, some [])] ∧
      (∀ decl, ¬ st.classBases.IsFinding decl) ∧
      (∀ c ∈ st.comparisons, ∀ decl bases, c.notes.bases? decl = some bases →
        c.notes.IsFinding decl ∧ bases = [] ∨ st.bases? decl = some bases) ∧
      ∀ c ∈ st.comparisons,
        (∀ cls, c.Consults cls → ∃ bases, c.notes.bases? cls.decl = some bases) ∧
        ∀ h : Hierarchy, (∀ cls bases, c.notes.bases? cls.decl = some bases → h cls = bases) →
          c.types.assignable h c.source c.target = c.holds := by
  intro files start ops s
  have hrun : (Era.start start).Steady ops ∧
      (start.after ops).Steady ((Era.start start).after ops).since ∧
      ((Inquiry.ofFile 0).outcome s).comparisons.map
          (fun c => (c.source, c.target, c.holds, c.notes.bases? ⟨0, 4⟩)) =
        [(16, 12, true, some [.declared ⟨⟨0, 0⟩, "A"⟩]), (16, 12, false, some [])] := by
    decide +kernel
  obtain ⟨hsteady, hnext, hcomparisons⟩ := hrun
  have hs : (start.after ops).Passes s := .bind .flush 0
  obtain ⟨hfinished, hfinal, hprepared⟩ := comparisons_prepared {} files [] ops hs (.ofFile 0)
  exact ⟨hsteady, hnext, hcomparisons, hfinished, hfinal, hprepared hsteady hnext⟩

/-- After everything was looked at again, a unit whose content is replaced by the same text comes
back with a type of the old table. While the bases of another class are searched for, a class below
it gets the number of this type; its own bases are not noted when the two are compared. -/
theorem comparison_unprepared_after_replacement :
    let files := FileStore.ofList
      [("a.py", "x = [[[1]]]\n"),
        ("b.py", "from a import x\ny: C = x\nh: D\nclass C(h):\n    pass\n" ++
          "class D(C):\n    pass\n"),
        ("c.py", "z = 1\n"), ("d.py", "w = 1\n")]
    let ops : List Operation :=
      [.setRoots ["a.py", "b.py", "c.py", "d.py"], .ask (.typeOfSymbol 0 "x"),
        .ask (.typeOfSymbol 2 "z"), .ask (.typeOfSymbol 3 "w"), .update "d.py" "v = 1\n", .flush,
        .update "a.py" "x = [[[1]]]\n", .update "c.py" "z = 2\n"]
    let s := (((Session.new {} files []).after ops).flush.ensureBound 1).2
    let st := (Inquiry.ofFile 1).outcome s
    ∃ c ∈ st.comparisons, c.Consults ⟨⟨1, 4⟩, "D"⟩ ∧ c.notes.bases? ⟨1, 4⟩ = none := by
  intro files ops s
  have hrun : ((Inquiry.ofFile 1).outcome s).comparisons.any (fun c => c.source = 14 ∧
      c.types.get? 14 = some (.inst (.declared ⟨⟨1, 4⟩, "D"⟩) []) ∧
      c.notes.bases? ⟨1, 4⟩ = none) = true := by
    decide +kernel
  obtain ⟨c, hc, hfacts⟩ := List.any_eq_true.mp hrun
  obtain ⟨hsource, hinst, hnone⟩ := of_decide_eq_true hfacts
  exact ⟨c, hc, ⟨c.source, c.target, _, _, .refl, .inl (hsource ▸ hinst), .refl⟩, hnone⟩

end LiveCheck
