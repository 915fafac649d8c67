import LiveCheck.Proofs.Parsing.Alignment

/-!
# Errors stay within their lines

Lines that hold no compound statement are parsed on their own, with errors or without: what follows
them is parsed as if it stood alone.
-/

/-!
## The order of problems

Problems are sorted by offset and number, and those that share both stay in the order in which they
were met. So the problems before an offset can be sorted apart from the others.
-/

namespace LiveCheck

namespace Finding

variable {f g h : Finding} {fs gs : List Finding} {k : Nat}

private theorem notAfter_iff : f.notAfter g = true ↔
    f.span.start < g.span.start ∨ f.span.start = g.span.start ∧ f.code ≤ g.code := by
  simp [notAfter]

private theorem notAfter_trans (f g h : Finding) (hfg : f.notAfter g = true)
    (hgh : g.notAfter h = true) :
    f.notAfter h = true := by
  rw [notAfter_iff] at hfg hgh ⊢
  omega

private theorem notAfter_total (f g : Finding) : (f.notAfter g || g.notAfter f) = true := by
  rw [Bool.or_eq_true, notAfter_iff, notAfter_iff]
  omega

private theorem notAfter_moved (k : Nat) (f g : Finding) :
    (f.moved k).notAfter (g.moved k) = f.notAfter g := by
  rw [Bool.eq_iff_iff, notAfter_iff, notAfter_iff]
  simp only [moved, Span.moved]
  omega

private def sorted (fs : List Finding) : List Finding := fs.mergeSort notAfter

private theorem sorted_cons (f : Finding) (fs : List Finding) :
    sorted (f :: fs) =
      (sorted fs).takeWhile (!f.notAfter ·) ++ f :: (sorted fs).dropWhile (!f.notAfter ·) := by
  obtain ⟨before, behind, heq, hsorted, hbefore⟩ :=
    List.mergeSort_cons notAfter_trans notAfter_total f fs
  have hpairwise := List.pairwise_mergeSort notAfter_trans notAfter_total (f :: fs)
  rw [heq] at hpairwise
  have hbehind : ∀ g ∈ behind, f.notAfter g = true :=
    fun g hg => List.rel_of_pairwise_cons (List.pairwise_append.mp hpairwise).2.1 hg
  have hnone : behind.takeWhile (!f.notAfter ·) = [] ∧ behind.dropWhile (!f.notAfter ·) = behind := by
    cases behind with
    | nil => exact ⟨rfl, rfl⟩
    | cons g behind =>
      have hg := hbehind g List.mem_cons_self
      simp [hg]
  rw [sorted, sorted, heq, hsorted, List.takeWhile_append_of_pos hbefore,
    List.dropWhile_append_of_pos hbefore, hnone.1, hnone.2, List.append_nil]

private theorem mem_sorted : f ∈ sorted fs ↔ f ∈ fs := List.mem_mergeSort

private theorem takeWhile_append_of_neg {p : Finding → Bool} (fs : List Finding)
    (hgs : ∀ g ∈ gs, p g = false) :
    (fs ++ gs).takeWhile p = fs.takeWhile p ∧ (fs ++ gs).dropWhile p = fs.dropWhile p ++ gs := by
  induction fs with
  | nil =>
    cases gs with
    | nil => exact ⟨rfl, rfl⟩
    | cons g gs =>
      have hg := hgs g List.mem_cons_self
      simp [hg]
  | cons f fs ih =>
    obtain ⟨htake, hdrop⟩ := ih
    cases hf : p f with
    | true => simp [hf, htake, hdrop]
    | false => simp [hf]

private theorem sorted_eq_append (k : Nat) (fs : List Finding) :
    sorted fs = sorted (fs.filter (·.span.start < k)) ++ sorted (fs.filter (!·.span.start < k)) := by
  induction fs with
  | nil => simp [sorted]
  | cons f fs ih =>
    have hlow : ∀ g ∈ sorted (fs.filter (·.span.start < k)), g.span.start < k := fun g hg =>
      of_decide_eq_true (List.mem_filter.mp (mem_sorted.mp hg)).2
    have hhigh : ∀ g ∈ sorted (fs.filter (!·.span.start < k)), k ≤ g.span.start := fun g hg => by
      simpa using (List.mem_filter.mp (mem_sorted.mp hg)).2
    by_cases hf : f.span.start < k
    · have hafter : ∀ g ∈ sorted (fs.filter (!·.span.start < k)), (!f.notAfter g) = false :=
        fun g hg => by
          have hg := hhigh g hg
          rw [Bool.not_eq_false', notAfter_iff]
          omega
      obtain ⟨htake, hdrop⟩ :=
        takeWhile_append_of_neg (sorted (fs.filter (·.span.start < k))) hafter
      have hkept : (f :: fs).filter (·.span.start < k) = f :: fs.filter (·.span.start < k) := by
        simp [hf]
      have hleft : (f :: fs).filter (!·.span.start < k) = fs.filter (!·.span.start < k) := by
        simp [hf]
      rw [sorted_cons, ih, htake, hdrop, hkept, hleft, sorted_cons, List.append_assoc,
        List.cons_append]
    · have hbefore : ∀ g ∈ sorted (fs.filter (·.span.start < k)), (!f.notAfter g) = true :=
        fun g hg => by
          have hg := hlow g hg
          rw [Bool.not_eq_true', ← Bool.not_eq_true, notAfter_iff]
          omega
      have hleft : (f :: fs).filter (·.span.start < k) = fs.filter (·.span.start < k) := by
        simp [hf]
      have hkept : (f :: fs).filter (!·.span.start < k) = f :: fs.filter (!·.span.start < k) := by
        simp [hf]
      rw [sorted_cons, ih, List.takeWhile_append_of_pos hbefore, List.dropWhile_append_of_pos hbefore,
        hleft, hkept, sorted_cons, List.append_assoc]

private theorem sorted_append {fs' gs' : List Finding} (hlow : ∀ f ∈ fs ++ fs', f.span.start < k)
    (hhigh : ∀ g ∈ gs ++ gs', k ≤ g.span.start) :
    sorted (fs ++ gs ++ (fs' ++ gs')) = sorted (fs ++ fs') ++ sorted (gs ++ gs') := by
  have hkept (hs : List Finding) (h : ∀ f ∈ hs, f.span.start < k) :
      hs.filter (·.span.start < k) = hs ∧ hs.filter (!·.span.start < k) = [] :=
    ⟨List.filter_eq_self.mpr fun f hf => decide_eq_true (h f hf),
      List.filter_eq_nil_iff.mpr fun f hf => by simp [h f hf]⟩
  have hleft (hs : List Finding) (h : ∀ f ∈ hs, k ≤ f.span.start) :
      hs.filter (·.span.start < k) = [] ∧ hs.filter (!·.span.start < k) = hs :=
    ⟨List.filter_eq_nil_iff.mpr fun f hf => by simp [h f hf],
      List.filter_eq_self.mpr fun f hf => by simp [h f hf]⟩
  have hfs := hkept fs fun f hf => hlow f (List.mem_append_left _ hf)
  have hfs' := hkept fs' fun f hf => hlow f (List.mem_append_right _ hf)
  have hgs := hleft gs fun g hg => hhigh g (List.mem_append_left _ hg)
  have hgs' := hleft gs' fun g hg => hhigh g (List.mem_append_right _ hg)
  rw [sorted_eq_append k]
  simp only [List.filter_append, hfs.1, hfs.2, hfs'.1, hfs'.2, hgs.1, hgs.2, hgs'.1, hgs'.2,
    List.append_nil, List.nil_append]

private theorem sorted_moved (k : Nat) (fs : List Finding) :
    sorted (fs.map (·.moved k)) = (sorted fs).map (·.moved k) :=
  (List.map_mergeSort fun f _ g _ => (notAfter_moved k f g).symm).symm

end Finding
end LiveCheck

namespace LiveCheck

open Scanner Finding

/-- The text is made of whole lines, none of them indented and none of them the beginning of a
compound statement. There may be errors in the lines. -/
structure SimpleLines (text : String) : Prop where
  complete : CompleteLines text
  level : ∀ token ∈ (scan text).tokens, token.kind ≠ .indent
  leading : ∀ i token, (scan text).tokens[i]? = some token →
    (i = 0 ∨ ((scan text).tokens[i - 1]?.map (·.kind)) = some .newline) →
      token.kind.beginsCompound = false

namespace SimpleLines

variable {a b : String} {token : Token}

/-- What the tokens of the lines are. -/
private structure IsInLines (a : String) (token : Token) : Prop where
  start : token.span.start < a.utf8ByteSize
  newline : token.kind.endsLine = true → token.kind = .newline
  stop : token.kind.endsLine = false → token.span.stop < a.utf8ByteSize

private theorem mem_scan (h : SimpleLines a) (htoken : token ∈ (start a).run.tokens) :
    token ∈ (scan a).tokens := by
  rw [h.complete.scan_eq]
  exact Array.mem_push_of_mem _ htoken

private theorem isLayout_back (h : SimpleLines a)
    (htoken : (start a).run.tokens.back? = some token) :
    token.kind.isLayout = true := h.complete.beginsLine_before token htoken

private theorem isInLines (h : SimpleLines a) (htoken : token ∈ (start a).run.tokens) :
    IsInLines a token := by
  have hsettled := settled_run (settled_start a)
  rw [CompleteLines.offset] at hsettled
  have hlevel : ∀ token ∈ (start a).run.tokens, token.kind ≠ .dedent := by
    rcases hsettled.level with ⟨-, hlevel⟩ | ⟨other, hother, hindent⟩
    · exact hlevel
    · exact absurd hindent (h.level other (h.mem_scan hother))
  obtain ⟨hstart, hend⟩ := hsettled.tokens token htoken
  refine ⟨hstart, fun hline => ?_, fun hline => ?_⟩
  · have hindent := h.level token (h.mem_scan htoken)
    have hdedent := hlevel token htoken
    cases hk : token.kind <;> rw [hk] at hline hend hindent hdedent <;> first | rfl | contradiction
  · have hne := List.ne_nil_of_mem (Array.mem_toList_iff.mpr htoken)
    obtain ⟨before, last, hsplit⟩ : ∃ before last, (start a).run.tokens.toList = before ++ [last] :=
      ⟨_, _, (List.dropLast_concat_getLast hne).symm⟩
    have hlast : (start a).run.tokens.back? = some last := by
      rw [← Array.getLast?_toList, hsplit, List.getLast?_concat]
    have hlayout := h.isLayout_back hlast
    have hordered : (before ++ [last]).Pairwise Token.Precedes := by
      have hscan := (ordered_scan a).ordered
      rw [h.complete.scan_eq, Array.toList_push, hsplit] at hscan
      exact (List.pairwise_append.mp hscan).1
    rw [← Array.mem_toList_iff, hsplit] at htoken
    rcases List.mem_append.mp htoken with hbefore | hsame
    · have hprecedes : token.Precedes last :=
        (List.pairwise_append.mp hordered).2.2 token hbefore last (List.mem_singleton_self last)
      exact Nat.lt_of_le_of_lt hprecedes (hsettled.tokens last (Array.mem_of_back? hlast)).1
    · rw [List.mem_singleton.mp hsame, TokenKind.endsLine_of_isLayout hlayout] at hline
      cases hline

variable (h : SimpleLines a) (b : String)

include h

private theorem getElem?_scan {j : Nat} (hj : j < (start a).run.tokens.size) :
    (scan a).tokens[j]? = (start a).run.tokens[j]? := by
  rw [h.complete.scan_eq]
  exact (Array.getElem?_push ..).trans (if_neg (Nat.ne_of_lt hj))

private theorem getElem?_scan_append {j : Nat} (hj : j < (start a).run.tokens.size) :
    (scan (a ++ b)).tokens[j]? = (start a).run.tokens[j]? := by
  rw [tokens_scan_append h.complete]
  exact Array.getElem?_append_left hj

private theorem size_scan : (scan a).tokens.size = (start a).run.tokens.size + 1 := by
  rw [h.complete.scan_eq]
  exact Array.size_push _

private def alignment : Alignment where
  tokens := (scan a).tokens
  others := (scan (a ++ b)).tokens
  bound := (start a).run.tokens.size
  cursor := 0
  offset := 0
  arena := .empty
  findings := (scan a).findings
  findings' := (scan (a ++ b)).findings
  Start start := start < a.utf8ByteSize
  token j hj := by
    have htoken : (start a).run.tokens[j]? = some (start a).run.tokens[j] :=
      Array.getElem?_eq_getElem hj
    have hlines := h.isInLines (Array.getElem_mem hj)
    exact ⟨_, (h.getElem?_scan hj).trans htoken, (h.getElem?_scan_append b hj).trans htoken,
      hlines.start, hlines.stop⟩
  last j hj hbound := by
    have htoken : (start a).run.tokens[j]? = some (start a).run.tokens[j] :=
      Array.getElem?_eq_getElem hj
    have hback : (start a).run.tokens.back? = some (start a).run.tokens[j] := by
      rw [Array.back?_eq_getElem?, ← htoken]
      exact congrArg _ (by omega)
    exact ⟨_, (h.getElem?_scan hj).trans htoken,
      TokenKind.endsLine_of_isLayout (h.isLayout_back hback)⟩
  size := by
    obtain ⟨before, stop, hlast, -⟩ := (ordered_scan b).last
    have hsize : (scan b).tokens.size = before.length + 1 := by
      rw [← Array.length_toList, hlast, List.length_append, List.length_singleton]
    rw [h.size_scan, tokens_scan_append h.complete, Array.size_append, Array.size_map, hsize]
    omega
  ordered := ordered_scan a
  ended := Lockstep.ended_of_ordered (ordered_scan (a ++ b))
  fresh finding hfinding := Code.not_mem_ofParser _ (code_of_scan hfinding)
  fresh' finding hfinding hcode := absurd hcode (Code.not_mem_ofParser _ (code_of_scan hfinding))

end SimpleLines

/-! ## Line by line -/

namespace Parser

variable {s t : ParseState} {m : Nat} {first : List NodeId}

private theorem run_statement_of_simple (x : Parser (List NodeId))
    (hsimple : s.token.kind.beginsCompound = false) : (statement x).run s = simpleLine.run s := by
  have hkind : kind.run s = (s.token.kind, s) := rfl
  rw [statement, run_bind hkind]
  split
  case h_9 => rfl
  all_goals
    rename_i hk
    rw [hk] at hsimple
    cases hsimple

private theorem run_moduleUpTo_newline (hk : s.token.kind = .newline) :
    (moduleUpTo (m + 1)).run s = (moduleUpTo m).run s.passed := by
  have hkind : kind.run s = (s.token.kind, s) := rfl
  have hlayout : s.token.kind.isLayout = true := by rw [hk]; rfl
  rw [moduleUpTo, run_bind hkind, hk]
  exact run_bind (run_bump_of_isLayout hlayout)

private theorem run_moduleUpTo_line (hline : s.token.kind.endsLine = false)
    (hsimple : s.token.kind.beginsCompound = false) (hrun : simpleLine.run s = (first, t)) :
    (moduleUpTo (m + 1)).run s = ((first ++ ·) <$> moduleUpTo m).run t := by
  have hkind : kind.run s = (s.token.kind, s) := rfl
  have hremaining : remaining.run s = (s.remaining, s) := rfl
  rw [moduleUpTo, run_bind hkind]
  split
  case h_5 =>
    rw [run_bind hremaining, run_bind ((run_statement_of_simple _ hsimple).trans hrun)]
    rfl
  all_goals
    rename_i hk
    rw [hk] at hline
    cases hline

private theorem run_moduleUpTo_end (hk : s.token.kind = .endOfFile) :
    (moduleUpTo (m + 1)).run s = ([], s) := by
  have hkind : kind.run s = (s.token.kind, s) := rfl
  rw [moduleUpTo, run_bind hkind, hk]
  rfl

private theorem run_simpleLine {body : List NodeId} (hrun : lineStatements.run s = (body, t))
    (hk : t.token.kind = .newline) : simpleLine.run s = (body, t.passed) := by
  rw [simpleLine_eq, run_bind hrun, run_bind (run_eat_isLayout hk rfl)]
  rfl

end Parser

namespace SimpleLines

open LiveCheck.Parser

variable {a b : String} {s t : ParseState} {m m' : Nat}

private def AtLine (a : String) (s : ParseState) : Prop :=
  s.cursor = 0 ∨ ((scan a).tokens[s.cursor - 1]?.map (·.kind)) = some .newline

variable {h : SimpleLines a}

private theorem getElem?_token (hrel : (h.alignment b).Together s t []) :
    (scan a).tokens[s.cursor]? = some s.token := by
  have hlt := hrel.lt_size
  rw [ParseState.token_eq hlt, ← Array.getElem?_eq_getElem hlt, hrel.tokens]
  rfl

private theorem isInLines_token (hrel : (h.alignment b).Together s t []) : IsInLines a s.token := by
  have htoken := getElem?_token hrel
  rw [h.getElem?_scan hrel.cursor_lt] at htoken
  exact h.isInLines (Array.mem_of_getElem? htoken)

private theorem beginsCompound_token (hrel : (h.alignment b).Together s t []) (hat : AtLine a s) :
    s.token.kind.beginsCompound = false :=
  h.leading s.cursor s.token (getElem?_token hrel) hat

private theorem passed_newline {ps : List NodeId} (hrel : (h.alignment b).Together s t ps)
    (hk : s.token.kind = .newline) :
    (h.alignment b).Beside s.passed t.passed ∧ s.cursor + 1 ≤ (start a).run.tokens.size ∧
      AtLine a s.passed := by
  have hrel := hrel.of_subset (List.nil_subset ps)
  refine ⟨hrel.pass, hrel.cursor_lt, .inr ?_⟩
  show ((scan a).tokens[s.cursor]?.map (·.kind)) = some .newline
  rw [getElem?_token hrel, ← hk]
  rfl

private theorem run_lines (hbeside : (h.alignment b).Beside s t)
    (hle : s.cursor ≤ (start a).run.tokens.size) (hat : AtLine a s)
    (hm : (scan a).tokens.size ≤ m + s.cursor)
    (hm' : (scan (a ++ b)).tokens.size ≤ m' + t.cursor) :
    ∃ body s' t' fuel, (moduleUpTo m).run s = (body, s') ∧
      (moduleUpTo m').run t = ((body ++ ·) <$> moduleUpTo fuel).run t' ∧
      (h.alignment b).Beside s' t' ∧ s'.cursor = (start a).run.tokens.size ∧
      (scan (a ++ b)).tokens.size ≤ fuel + t'.cursor := by
  induction m generalizing s t m' with
  | zero =>
    have hsize := h.size_scan
    omega
  | succ m ih =>
    have hcursor : t.cursor = s.cursor := hbeside.cursor
    rcases Nat.lt_or_eq_of_le hle with hlt | heq
    · have hrel : (h.alignment b).Together s t [] :=
        { hbeside with cursor_lt := hlt, pending := nofun }
      have hkind' : t.token.kind = s.token.kind := by rw [hrel.token.1]; rfl
      obtain ⟨m', rfl⟩ : ∃ l, m' = l + 1 := by
        refine Nat.exists_eq_succ_of_ne_zero fun hzero => ?_
        have hlt' := hrel.lt_size'
        rw [hrel.others] at hlt'
        have hsize : (h.alignment b).others.size = (scan (a ++ b)).tokens.size := rfl
        omega
      cases hline : s.token.kind.endsLine with
      | true =>
        have hk := (isInLines_token hrel).newline hline
        obtain ⟨hpassed, hle', hat'⟩ := passed_newline hrel hk
        rw [run_moduleUpTo_newline hk, run_moduleUpTo_newline (hkind'.trans hk)]
        refine ih hpassed hle' hat' ?_ ?_
        · show (scan a).tokens.size ≤ m + (s.cursor + 1)
          omega
        · show (scan (a ++ b)).tokens.size ≤ m' + (t.cursor + 1)
          omega
      | false =>
        have hsimple := beginsCompound_token hrel hat
        have habreast : (h.alignment b).lockstep.Abreast 1 s t [] lineStatements lineStatements
            (h.alignment b).lockstep.Nodes := abreast_lineStatements hline
        obtain ⟨pending, ⟨hsame, -⟩, hrel₁, hbefore⟩ := habreast [] hrel
        have hrel' : (h.alignment b).lockstep.Rel s t [] := hrel
        have hend := endsLine_lineStatements hrel'
        generalize hrun : lineStatements.run s = result at hsame hrel₁ hbefore hend
        generalize hrun' : lineStatements.run t = result' at hsame hrel₁
        obtain ⟨first, s₁⟩ := result
        obtain ⟨first', t₁⟩ := result'
        have hrel₁ : (h.alignment b).Together s₁ t₁ pending := hrel₁
        have hfirst : first' = first := hsame.trans (List.map_id first)
        have hk : s₁.token.kind = .newline :=
          (isInLines_token (hrel₁.of_subset (List.nil_subset _))).newline hend
        have hk' : t₁.token.kind = .newline := by rw [hrel₁.token.1]; exact hk
        obtain ⟨hpassed, hle', hat'⟩ := passed_newline hrel₁ hk
        have hcursor₁ : t₁.cursor = s₁.cursor := hrel₁.cursor
        have hbefore : s.cursor + 1 ≤ s₁.cursor := hbefore.cursor
        have hm₁ : (scan a).tokens.size ≤ m + (s₁.cursor + 1) := by omega
        have hm₁' : (scan (a ++ b)).tokens.size ≤ m' + (t₁.cursor + 1) := by omega
        obtain ⟨body, s', t', fuel, hs', ht', hbehind⟩ := ih hpassed hle' hat' hm₁ hm₁'
        refine ⟨first ++ body, s', t', fuel, ?_, ?_, hbehind⟩
        · rw [run_moduleUpTo_line hline hsimple (run_simpleLine hrun hk), StateT.run_map, hs']
          rfl
        · have hline' : t.token.kind.endsLine = false := by rw [hkind']; exact hline
          have hsimple' : t.token.kind.beginsCompound = false := by rw [hkind']; exact hsimple
          rw [hfirst] at hrun'
          rw [run_moduleUpTo_line hline' hsimple' (run_simpleLine hrun' hk'), StateT.run_map, ht']
          exact congrArg (·, _) (List.append_assoc first body _).symm
    · have hend : s.token.kind = .endOfFile := by
        have htoken : (scan a).tokens[s.cursor]? =
            some ⟨.endOfFile, ⟨a.utf8ByteSize, a.utf8ByteSize⟩, ""⟩ := by
          rw [h.complete.scan_eq, heq]
          exact Array.getElem?_push_size
        show ((s.tokens[s.cursor]?.or s.tokens.back?).getD ⟨.endOfFile, ⟨0, 0⟩, ""⟩).kind = .endOfFile
        rw [hbeside.tokens]
        show (((scan a).tokens[s.cursor]?.or _).getD _).kind = .endOfFile
        rw [htoken]
        rfl
      refine ⟨[], s, t, m', run_moduleUpTo_end hend, ?_, hbeside, heq, hm'⟩
      rw [StateT.run_map]
      rfl

/-! ## Behind the lines -/

private theorem beside_start (h : SimpleLines a) (b : String) :
    (h.alignment b).Beside (.start a) (.start (a ++ b)) where
  tokens := rfl
  others := rfl
  cursor := rfl
  lastStop := .inl rfl
  findings := ⟨[], (List.append_nil _).symm, (List.append_nil _).symm, nofun⟩
  arena := .refl .empty 0
  starts := nofun
  stops hne := absurd rfl hne

private def alignmentBehind (h : SimpleLines a) (b : String)
    (hbeside : (h.alignment b).Beside s t) :
    Alignment where
  tokens := (scan b).tokens
  others := (scan (a ++ b)).tokens
  bound := (scan b).tokens.size
  cursor := (start a).run.tokens.size
  offset := a.utf8ByteSize
  arena := t.arena
  findings := (scan b).findings
  findings' := t.findings
  Start _ := True
  token j hj := by
    have htoken : (scan b).tokens[j]? = some (scan b).tokens[j] := Array.getElem?_eq_getElem hj
    refine ⟨_, htoken, ?_, trivial, fun _ => trivial⟩
    rw [tokens_scan_append h.complete, Array.getElem?_append_right (Nat.le_add_left _ _),
      Nat.add_sub_cancel, Array.getElem?_map, htoken]
    rfl
  last j hj hbound := by
    have hended := Lockstep.ended_of_ordered (ordered_scan b)
    obtain ⟨last, hlast, hk⟩ := Option.map_eq_some_iff.mp hended
    refine ⟨last, ?_, by rw [hk]; rfl⟩
    rw [← hlast, Array.back?_eq_getElem?]
    exact congrArg _ (by omega)
  size := by
    rw [tokens_scan_append h.complete, Array.size_append, Array.size_map]
    omega
  ordered := ordered_scan b
  ended := Lockstep.ended_of_ordered (ordered_scan (a ++ b))
  fresh finding hfinding := Code.not_mem_ofParser _ (code_of_scan hfinding)
  fresh' finding hfinding hcode := by
    obtain ⟨found, -, ht, hfound⟩ := hbeside.findings
    rw [← Array.mem_toList_iff, ht] at hfinding
    rcases List.mem_append.mp hfinding with hscan | hmoved
    · exact absurd hcode (Code.not_mem_ofParser _ (code_of_scan (Array.mem_toList_iff.mp hscan)))
    · obtain ⟨finding, hmem, rfl⟩ := List.mem_map.mp hmoved
      exact hfound finding hmem

private theorem together_start (h : SimpleLines a) (b : String)
    (hbeside : (h.alignment b).Beside s t)
    (hend : s.cursor = (start a).run.tokens.size) :
    (h.alignmentBehind b hbeside).Together (.start b) t [] where
  tokens := rfl
  others := hbeside.others
  cursor := by
    have hcursor : t.cursor = s.cursor := hbeside.cursor
    show t.cursor = 0 + (start a).run.tokens.size
    omega
  lastStop := by
    refine .inr ⟨rfl, ?_⟩
    have hstop : s.lastStop ≠ 0 → s.lastStop < a.utf8ByteSize := hbeside.stops
    have hsame : t.lastStop = s.lastStop + 0 ∨ s.lastStop = 0 ∧ t.lastStop ≤ 0 := hbeside.lastStop
    show t.lastStop ≤ a.utf8ByteSize
    omega
  findings := ⟨[], (List.append_nil _).symm, (List.append_nil _).symm, nofun⟩
  arena := .refl t.arena _
  starts := nofun
  stops _ := trivial
  cursor_lt := (accounted_start b).cursor_lt
  pending := nofun

end SimpleLines

/-- The parse of two texts that stand one behind the other is the parse of the first and, behind it,
that of the second: its nodes come behind `m` others, and its spans are those many bytes later that
the first text has. -/
structure ParsedApart (a b : String) (m : Nat) : Prop where
  statements : (parse (a ++ b)).tree.statements =
    (parse a).tree.statements ++ (parse b).tree.statements.map (· + m)
  first : ∀ i < (parse a).tree.arena.size, i ≠ (parse a).tree.root →
    (parse a).tree.arena.SameNode (parse (a ++ b)).tree.arena id 0 i
  second : ∀ i < (parse b).tree.arena.size, i ≠ (parse b).tree.root →
    (parse b).tree.arena.SameNode (parse (a ++ b)).tree.arena (· + m) a.utf8ByteSize i
  scanned : (scan (a ++ b)).findings =
    (scan a).findings ++ (scan b).findings.map (·.moved a.utf8ByteSize)
  findings : (parse (a ++ b)).findings =
    (parse a).findings ++ (parse b).findings.map (·.moved a.utf8ByteSize)
  reported : (parse (a ++ b)).findings.filter (·.code ∈ Code.ofParser) =
    (parse a).findings.filter (·.code ∈ Code.ofParser) ++
      ((parse b).findings.filter (·.code ∈ Code.ofParser)).map (·.moved a.utf8ByteSize)

private theorem statements_parse {text : String} {body : List NodeId} {s : ParseState}
    (h : (Parser.moduleUpTo (ParseState.start text).remaining).run (.start text) = (body, s)) :
    (parse text).tree.statements = body := by
  rw [parse_of_module h, Tree.statements, Arena.data?_add]

private theorem sameNode_parse {text text' : String} {body body' : List NodeId} {s t : ParseState}
    {f : NodeId → NodeId} {k : Nat}
    (h : (Parser.moduleUpTo (ParseState.start text).remaining).run (.start text) = (body, s))
    (h' : (Parser.moduleUpTo (ParseState.start text').remaining).run (.start text') = (body', t))
    (hsame : ∀ i < s.arena.size, s.arena.SameNode t.arena f k i)
    (hf : ∀ i < s.arena.size, f i < t.arena.size) (i : NodeId)
    (hi : i < (parse text).tree.arena.size) (hroot : i ≠ (parse text).tree.root) :
    (parse text).tree.arena.SameNode (parse text').tree.arena f k i := by
  rw [parse_of_module h] at hi hroot ⊢
  rw [parse_of_module h']
  have hsize : (s.arena.add (.root body) ⟨0, text.utf8ByteSize⟩).2.size = s.arena.size + 1 :=
    s.arena.size_add _ _
  have hlt : i < s.arena.size :=
    Nat.lt_of_le_of_ne (Nat.le_of_lt_succ (Nat.lt_of_lt_of_eq hi hsize)) hroot
  exact (hsame i hlt).mono hlt (s.arena.extends_add _ _) (t.arena.extends_add _ _)
    (Arena.span_add_of_lt hlt _ _) (Arena.span_add_of_lt (hf i hlt) _ _)

/-- Errors in lines without compound statements do not reach what stands behind the lines. -/
theorem exists_parsedApart (a b : String) (h : SimpleLines a) : ∃ m, ParsedApart a b m := by
  have hm : (scan a).tokens.size ≤
      (ParseState.start a).remaining + (ParseState.start a).cursor := Nat.le_add_right _ _
  have hm' : (scan (a ++ b)).tokens.size ≤
      (ParseState.start (a ++ b)).remaining + (ParseState.start (a ++ b)).cursor :=
    Nat.le_add_right _ _
  obtain ⟨body, s, t, fuel, hs, ht, hbeside, hend, hfuel⟩ :=
    SimpleLines.run_lines (h.beside_start b) (Nat.zero_le _) (.inl rfl) hm hm'
  have hrel := h.together_start b hbeside hend
  have hL : (h.alignmentBehind b hbeside).lockstep.CrossesLines := Alignment.crossesLines rfl
  have hfuel' : (scan b).tokens.size ≤ fuel + 0 := by
    have hcursor : t.cursor = s.cursor := hbeside.cursor
    rw [tokens_scan_append h.complete, Array.size_append, Array.size_map] at hfuel
    omega
  have habreast : (h.alignmentBehind b hbeside).lockstep.Abreast 0 (.start b) t []
      (Parser.moduleUpTo (ParseState.start b).remaining) (Parser.moduleUpTo fuel)
      (h.alignmentBehind b hbeside).lockstep.Nodes :=
    Parser.abreast_moduleUpTo hL (Nat.le_add_right _ _) hfuel'
  obtain ⟨pending, ⟨hbody, -⟩, hdone, -⟩ := habreast [] hrel
  generalize hrun : (Parser.moduleUpTo (ParseState.start b).remaining).run (.start b) = result
    at hbody hdone
  generalize hrun' : (Parser.moduleUpTo fuel).run t = result' at hbody hdone
  obtain ⟨rest, r⟩ := result
  obtain ⟨rest', t'⟩ := result'
  have hdone : (h.alignmentBehind b hbeside).Together r t' pending := hdone
  have hbody : rest' = rest.map (· + t.arena.size) := hbody
  rw [StateT.run_map, hrun'] at ht
  have hfollows : t.arena.Follows a.utf8ByteSize r.arena t'.arena := hdone.arena
  have hfindings : sorted t'.findings.toList =
      sorted s.findings.toList ++ (sorted r.findings.toList).map (·.moved a.utf8ByteSize) := by
    obtain ⟨found, hfirst, hlines, hlow⟩ := hbeside.findings
    obtain ⟨found', hsecond, hbehind, -⟩ := hdone.findings
    have hfirst : s.findings.toList = (scan a).findings.toList ++ found := hfirst
    have hlines : t.findings.toList = (scan (a ++ b)).findings.toList ++ found :=
      hlines.trans (congrArg _ (List.map_id found))
    have hsecond : r.findings.toList = (scan b).findings.toList ++ found' := hsecond
    have hbehind : t'.findings.toList =
        t.findings.toList ++ found'.map (·.moved a.utf8ByteSize) := hbehind
    have hscan : (scan (a ++ b)).findings.toList = (scan a).findings.toList ++
        (scan b).findings.toList.map (·.moved a.utf8ByteSize) := by
      rw [findings_scan_append h.complete, Array.toList_append, Array.toList_map]
    have hlow : ∀ f ∈ (scan a).findings.toList ++ found, f.span.start < a.utf8ByteSize := by
      intro f hf
      rcases List.mem_append.mp hf with hf | hf
      · have hsettled := settled_run (settled_start a)
        rw [CompleteLines.offset] at hsettled
        rw [h.complete.scan_eq] at hf
        exact (hsettled.findings f (Array.mem_toList_iff.mp hf)).1
      · exact hlow f hf
    have hhigh : ∀ f ∈ (scan b).findings.toList.map (·.moved a.utf8ByteSize) ++
        found'.map (·.moved a.utf8ByteSize), a.utf8ByteSize ≤ f.span.start := by
      intro f hf
      rw [← List.map_append] at hf
      obtain ⟨g, -, rfl⟩ := List.mem_map.mp hf
      exact Nat.le_add_left _ _
    rw [hbehind, hlines, hscan, List.append_assoc, sorted_append hlow hhigh, ← List.map_append,
      sorted_moved, ← hfirst, ← hsecond]
  have hall : (parse (a ++ b)).findings =
      (parse a).findings ++ (parse b).findings.map (·.moved a.utf8ByteSize) := by
    rw [parse_of_module ht, parse_of_module hs, parse_of_module hrun]
    exact hfindings
  refine ⟨t.arena.size, ?_, ?_, ?_, findings_scan_append h.complete b, hall, ?_⟩
  · rw [statements_parse ht, statements_parse hs, statements_parse hrun, ← hbody]
  · have hlines : ∀ i < s.arena.size, s.arena.SameNode t.arena id 0 i := hbeside.arena.node
    have hsize : t.arena.size = s.arena.size := hbeside.arena.size
    refine sameNode_parse hs ht (fun i hi => ?_) fun i hi => ?_
    · exact (hlines i hi).mono hi (.refl _) hfollows.behind rfl (hfollows.spans i (hsize ▸ hi))
    · rw [hfollows.size, hsize]
      exact Nat.lt_add_left _ hi
  · refine sameNode_parse hrun ht hfollows.node fun i hi => ?_
    rw [hfollows.size]
    exact Nat.add_lt_add_right hi _
  · rw [hall, List.filter_append, List.filter_map]
    rfl

private theorem simpleLines_closedTooOften : SimpleLines "x = )\n" where
  complete := by
    refine ⟨.inr ⟨"x = )", ?_⟩, ?_, ?_, ?_⟩
    all_goals decide +kernel
  level := by decide +kernel
  leading := by
    have hall : ∀ i : Fin (scan "x = )\n").tokens.size,
        (scan "x = )\n").tokens[i].kind.beginsCompound = false := by decide +kernel
    intro i token htoken _
    obtain ⟨hi, rfl⟩ := Array.getElem?_eq_some_iff.mp htoken
    exact hall ⟨i, hi⟩

/-- A line that is closed too often, before a broken one. -/
theorem exists_parsedApart_closedTooOften :
    SimpleLines "x = )\n" ∧ (parse "x = )\n").findings ≠ [] ∧
      ∃ m, ParsedApart "x = )\n" "if y:\n  1 +\n" m :=
  ⟨simpleLines_closedTooOften, by decide +kernel,
    exists_parsedApart _ _ simpleLines_closedTooOften⟩

end LiveCheck
