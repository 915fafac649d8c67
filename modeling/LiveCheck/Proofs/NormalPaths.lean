import LiveCheck.Proofs.Parsing.Account
import LiveCheck.Proofs.Paths
import LiveCheck.Proofs.RepeatedScans
import LiveCheck.Proofs.Scope.PublicNames
import LiveCheck.Session.Loading

/-!
# Imports ask for normal paths

A file is known by the text of its path, so the files of a module are looked for under normal paths
only. Names in a tree are words, with neither slashes nor dots in them; what the tables of a file
say about imports is put together from such names, and so are the paths that an import may mean.

The members of a package are looked for under normal paths as well, as long as the member has a
name. Where the name behind a dot is missing, the empty text is taken for it, and below a package
that is not at the root two of the paths that are tried have two slashes in a row.
-/

namespace LiveCheck

/-! ## The names in a parse -/

namespace Arena

variable {P : String → Prop} {a : Arena} {i : NodeId} {text : String}

private def Named (P : String → Prop) (a : Arena) : Prop :=
  ∀ i atom, a.data? i = some (.name atom) → ∃ text, a.names.names[atom]? = some text ∧ P text

private theorem Named.insert (h : a.Named P) (text : String) :
    ({ a with names := (a.names.insert text).2 } : Arena).Named P := by
  intro i atom hdata
  obtain ⟨found, hfound, hP⟩ := h i atom hdata
  exact ⟨found, (a.extends_insert text).names atom found hfound, hP⟩

private theorem Named.add (h : a.Named P) {data : NodeData} (span : Span)
    (hdata : ∀ atom, data = .name atom → ∃ text, a.names.names[atom]? = some text ∧ P text) :
    (a.add data span).2.Named P := by
  intro i atom hi
  have hlt := lt_size_of_data? hi
  rw [size_add] at hlt
  rcases Nat.lt_succ_iff_lt_or_eq.mp hlt with hlt | rfl
  · rw [data?_add_of_lt hlt] at hi
    exact h i atom hi
  · have hnew : (a.add data span).2.data? a.size = some data := a.data?_add data span
    exact hdata atom (Option.some.inj (hnew.symm.trans hi))

private theorem Named.nameText? (h : a.Named P) (htext : a.nameText? i = some text) : P text := by
  unfold Arena.nameText? at htext
  split at htext
  · next atom hdata =>
    obtain ⟨found, hfound, hP⟩ := h i atom hdata
    rw [NameTable.text, Array.getD_eq_getD_getElem?, hfound, Option.getD_some] at htext
    exact Option.some.inj htext ▸ hP
  · cases htext

end Arena

namespace Lockstep

variable {tokens : Array Token} {P : String → Prop} {s : ParseState}

private theorem named_name (hP : ∀ token ∈ s.tokens, token.kind = .name → P token.text)
    (h : s.arena.Named P) : (Parser.name.run s).2.arena.Named P := by
  by_cases hk : s.token.kind = .name
  · have hmem : s.token ∈ s.tokens := ParseState.token_mem (by rw [hk]; exact fun h => by cases h)
    rw [Parser.run_name hk]
    refine (h.insert s.token.text).add _ fun atom hatom => ⟨_, ?_, hP _ hmem hk⟩
    rw [← NodeData.name.inj hatom]
    exact Arena.names_insert _ _
  · obtain ⟨findings, heq, -⟩ := s.exists_reported Code.expectedName s.token.span none
    rw [Parser.run_name_of_ne hk, heq]
    exact h.add _ fun _ hname => by cases hname

private def naming (ht : Token.Ordered tokens)
    (hP : ∀ token ∈ tokens, token.kind = .name → P token.text) : Lockstep where
  Rel s t ps := (account tokens ht).Rel s t ps ∧ s.arena.Named P
  node := id
  shift := 0
  Start _ := True
  tokens := tokens
  tokens_eq h := (account tokens ht).tokens_eq h.1
  cursor_lt h := (account tokens ht).cursor_lt h.1
  remaining_le h := (account tokens ht).remaining_le h.1
  problems h h' := (account tokens ht).problems h.1 h'.1
  kind h := (account tokens ht).kind h.1
  text h := (account tokens ht).text h.1
  nextKind h := (account tokens ht).nextKind h.1
  start h := (account tokens ht).start h.1
  stopping := (account tokens ht).stopping
  ended := (account tokens ht).ended
  take h hline hcontent := ⟨(account tokens ht).take h.1 hline hcontent, h.2⟩
  report {s _ _ code} h hcode arg := by
    refine ⟨(account tokens ht).report h.1 hcode arg, ?_⟩
    obtain ⟨findings, heq, -⟩ := s.exists_reported code s.token.span arg
    rw [heq]
    exact h.2
  checkTarget {s _ _ i} h hi := by
    refine ⟨(account tokens ht).checkTarget h.1 hi, ?_⟩
    obtain ⟨findings, heq, -⟩ := Parser.exists_checkTarget i s
    rw [heq]
    exact h.2
  checkPlace {s _ _ i} h hi := by
    refine ⟨(account tokens ht).checkPlace h.1 hi, ?_⟩
    obtain ⟨findings, heq, -⟩ := Parser.exists_checkPlace i s
    rw [heq]
    exact h.2
  name {s _ _} h hk := by
    obtain ⟨hnode, hrel⟩ := (account tokens ht).name h.1 hk
    have htokens : s.tokens = tokens := (account tokens ht).tokens_eq h.1
    exact ⟨hnode, hrel, named_name (htokens ▸ hP) h.2⟩
  constant {s _ _} h hline hname kind := by
    obtain ⟨hnode, hrel⟩ := (account tokens ht).constant h.1 hline hname kind
    refine ⟨hnode, hrel, ?_⟩
    rw [Parser.run_constant hline]
    exact h.2.add _ fun _ hname => by cases hname
  strings {s _ _} h hk := by
    obtain ⟨hnode, hrel⟩ := (account tokens ht).strings h.1 hk
    have htokens : s.tokens = tokens := (account tokens ht).tokens_eq h.1
    refine ⟨hnode, hrel, ?_⟩
    rw [Parser.run_strings (htokens ▸ ended_of_ordered ht)
      (htokens ▸ (account tokens ht).cursor_lt h.1)]
    exact h.2.add _ fun _ hname => by cases hname
  finish {s _ _ data a} h hstart hdata := by
    obtain ⟨hnode, hrel⟩ := (account tokens ht).finish h.1 hstart hdata
    refine ⟨hnode, hrel, h.2.add _ fun _ hname => ?_⟩
    rcases hdata with hinner | ⟨rfl, -⟩
    · rw [hname] at hinner
      cases hinner
    · cases hname
  forget h hsize := ⟨(account tokens ht).forget h.1 hsize, h.2⟩
  tuple h := by
    rcases (account tokens ht).tuple h.1 with ⟨elts, hdata, hdata', hrel⟩ | hnone
    · exact .inl ⟨elts, hdata, hdata', hrel, h.2⟩
    · exact .inr hnone

end Lockstep

private theorem named_parse {P : String → Prop} {text : String}
    (hP : ∀ token ∈ (scan text).tokens, token.kind = .name → P token.text) :
    (parse text).tree.arena.Named P := by
  have ht := ordered_scan text
  have hL : (Lockstep.naming ht hP).CrossesLines := fun h hlayout =>
    ⟨Lockstep.account_crossesLines ht h.1 hlayout, h.2⟩
  have hempty : (ParseState.start text).arena.Named P := fun i atom hdata => by
    have hlt : i < 0 := Arena.lt_size_of_data? hdata
    exact absurd hlt (Nat.not_lt_zero i)
  have hrel : (Lockstep.naming ht hP).Rel (.start text) (.start text) [] :=
    ⟨⟨rfl, accounted_start text⟩, hempty⟩
  have hfuel : (scan text).tokens.size ≤
      (ParseState.start text).remaining + (ParseState.start text).cursor := Nat.le_add_right _ _
  obtain ⟨_, -, ⟨-, hdone⟩, -⟩ := Parser.abreast_moduleUpTo hL hfuel hfuel [] hrel
  generalize hmodule : (Parser.moduleUpTo (ParseState.start text).remaining).run (.start text) =
    result at hdone
  rw [parse_of_module hmodule]
  exact hdone.add _ fun _ hname => by cases hname

/-! ## Names are words -/

private def Spelled (text : String) : Prop := ∃ c cs, text.toList = c :: cs ∧ Scanner.IsWord c cs

namespace Scanner

open Lexeme (continuesName startsName)

variable {s t : Scanner} {c : Char} {cs : List Char} {kind : TokenKind} {n : Nat}

private def SpellsNames (token : Token) : Prop := token.kind = .name → Spelled token.text

private theorem spellsNames_of_endsLine {token : Token} (hk : token.kind.endsLine = true) :
    SpellsNames token := fun hname => by
  rw [hname] at hk
  cases hk

private theorem Holds.other (h : s.Holds SpellsNames) (hk : kind ≠ .name)
    (htokens : t.tokens = (s.take kind n).tokens) : t.Holds SpellsNames :=
  h.push htokens fun hname => absurd hname hk

private theorem Holds.string (h : s.Holds SpellsNames) (marks : Nat) :
    (s.takeString marks).Holds SpellsNames := by
  obtain ⟨findings, heq⟩ := s.takeString_eq marks
  rw [heq]
  refine h.other ?_ rfl
  unfold stringKind
  split <;> exact fun hk => by cases hk

private theorem Holds.symbol (h : s.Holds SpellsNames) : s.takeSymbol.Holds SpellsNames := by
  simp only [Scanner.takeSymbol]
  repeat' split
  all_goals exact h.other (fun hk => by cases hk) rfl

private theorem number_ne_name (cs : List Char) : (Lexeme.number cs).1 ≠ .name := by
  simp only [Lexeme.number, Lexeme.decimal]
  repeat' split
  all_goals exact fun hk => by cases hk

private theorem spellsNames_takeToken (hs : s.rest = c :: cs) (h : s.Holds SpellsNames) :
    (s.takeToken c).Holds SpellsNames := by
  unfold takeToken
  dsimp only
  split
  · exact h.congr rfl
  split
  · exact h.congr rfl
  split
  · exact holds_takeLineEnd (fun _ => spellsNames_of_endsLine) h
  split
  · exact h.congr rfl
  split
  · exact h.other (number_ne_name _) rfl
  split
  · exact h.string 0
  split
  · split
    · exact h.string _
    split
    · rename_i hname
      rw [takeName_eq s rfl, hs]
      refine h.push rfl fun _ => ⟨c, cs.takeWhile continuesName, ?_, hname,
        fun d hd => List.all_eq_true.mp List.all_takeWhile d hd⟩
      rw [String.toList_ofList, hs, List.drop_one, List.tail_cons, Nat.add_comm,
        List.take_succ_cons, Lexeme.take_run]
    · exact h.other (fun hk => by cases hk) rfl
  · exact h.symbol

private theorem spellsNames_scan (text : String) :
    ∀ token ∈ (scan text).tokens, SpellsNames token :=
  holds_scan (fun _ => spellsNames_of_endsLine) (fun _ _ _ => spellsNames_takeToken) text

end Scanner

private theorem spelled_parse (text : String) : (parse text).tree.arena.Named Spelled :=
  named_parse (Scanner.spellsNames_scan text)

/-! ## Texts without slashes -/

namespace Path

variable {path name text ext dotted : String} {ns ms : List String}

/-- No slash of either kind is in the text. -/
private structure Slashless (text : String) : Prop where
  slash : '/' ∉ text.toList
  backslash : '\\' ∉ text.toList

private theorem Slashless.append (h : Slashless name) (h' : Slashless text) :
    Slashless (name ++ text) :=
  ⟨by simp [h.slash, h'.slash], by simp [h.backslash, h'.backslash]⟩

private theorem slashless_dots (h : ∀ name ∈ ns, Slashless name) : Slashless (".".intercalate ns) :=
  ⟨Text.not_mem_intercalate '.' (by decide) fun name hname => (h name hname).slash,
    Text.not_mem_intercalate '.' (by decide) fun name hname => (h name hname).backslash⟩

private theorem slashless_of_spelled (h : Spelled name) : Slashless name := by
  obtain ⟨c, cs, htext, hword⟩ := h
  have hnot {d : Char} (hd : Lexeme.continuesName d = false) : d ∉ name.toList := fun hmem =>
    Bool.false_ne_true (hd.symm.trans (hword.all d (htext ▸ hmem)))
  exact ⟨hnot (by decide), hnot (by decide)⟩

private theorem plain_of_mem_parts (h : Slashless dotted) (hname : name ∈ Text.parts '.' dotted) :
    Plain name := by
  obtain ⟨hmem, hempty⟩ := List.mem_filter.mp hname
  have hdot := Text.not_mem_of_mem_split hmem
  have hsub := Text.subset_of_mem_split hmem
  exact ⟨by simpa using hempty, by rintro rfl; exact hdot (by decide),
    by rintro rfl; exact hdot (by decide), fun hslash => h.slash (hsub hslash),
    fun hslash => h.backslash (hsub hslash)⟩

private theorem plain_of_spelled (h : Spelled name) : Plain name := by
  have hslashless := slashless_of_spelled h
  obtain ⟨c, cs, htext, hword⟩ := h
  have hdot : '.' ∉ name.toList := fun hmem =>
    Bool.false_ne_true ((by decide : Lexeme.continuesName '.' = false).symm.trans
      (hword.all '.' (htext ▸ hmem)))
  refine ⟨?_, by rintro rfl; exact hdot (by decide), by rintro rfl; exact hdot (by decide),
    hslashless.slash, hslashless.backslash⟩
  rintro rfl
  cases htext

private theorem plain_source (h : Slashless name) (hext : ext ∈ extensions) :
    Plain (name ++ "." ++ ext) := by
  have hends : Slashless ("." ++ ext) ∧ ext.toList.getLast? ≠ some '.' ∧ ext ≠ "" := by
    rcases List.mem_cons.mp hext with rfl | hext
    · exact ⟨⟨by decide, by decide⟩, by decide, by decide⟩
    · obtain rfl := List.mem_singleton.mp hext
      exact ⟨⟨by decide, by decide⟩, by decide, by decide⟩
  obtain ⟨hslashless, hlast, hempty⟩ := hends
  have hnot {text : String} (htext : text.toList.getLast? = some '.') :
      name ++ "." ++ ext ≠ text := by
    rintro rfl
    obtain ⟨c, hc⟩ := Option.isSome_iff_exists.mp
      (List.getLast?_isSome.mpr (by simpa using hempty : ext.toList ≠ []))
    rw [String.toList_append, List.getLast?_append, hc] at htext
    exact hlast (hc.trans htext)
  have hwhole := h.append hslashless
  rw [← String.append_assoc] at hwhole
  exact ⟨by simp, hnot (by decide), hnot (by decide), hwhole.slash, hwhole.backslash⟩

private theorem plain_packageFile (h : name ∈ packageFiles) : Plain name := by
  obtain ⟨ext, hext, rfl⟩ := List.mem_map.mp h
  have hslashless : Slashless "__init__" := ⟨by decide, by decide⟩
  exact plain_source hslashless hext

private theorem normal_parent (h : Normalized path) : Normalized (parent path) := by
  obtain ⟨ns, hns, rfl⟩ := normal_iff.mp h
  by_cases hne : ns = []
  · subst hne
    rfl
  · rw [parent, split_ofNames (fun name hname => (hns name hname).slash) hne]
    exact normal_ofNames fun name hname => hns name (List.dropLast_subset ns hname)

private theorem join_ofNames (hns : ∀ name ∈ ns, Plain name) (name : String) :
    join (ofNames ns) name = ofNames (ns ++ [name]) := by
  by_cases hne : ns = []
  · rw [hne]
    exact (ofNames_singleton name).symm
  · rw [join_of_ne (ofNames_ne_empty (fun name hname => (hns name hname).nonempty) hne),
      ofNames_append hne (List.cons_ne_nil _ _), ofNames_singleton]

private theorem foldl_join_ofNames (hns : ∀ name ∈ ns, Plain name) (hms : ∀ name ∈ ms, Plain name) :
    ms.foldl join (ofNames ns) = ofNames (ns ++ ms) := by
  induction ms generalizing ns with
  | nil => rw [List.append_nil, List.foldl_nil]
  | cons name ms ih =>
    have hname : ∀ n ∈ ns ++ [name], Plain n := fun n hn =>
      (List.mem_append.mp hn).elim (hns n) fun hn =>
        hms n (List.mem_singleton.mp hn ▸ List.mem_cons_self)
    rw [List.foldl_cons, join_ofNames hns, ih hname fun n hn => hms n (List.mem_cons_of_mem name hn),
      List.append_assoc, List.singleton_append]

private theorem ofNames_concat (ns : List String) (name text : String) :
    ofNames (ns ++ [name]) ++ text = ofNames (ns ++ [name ++ text]) := by
  by_cases hne : ns = []
  · rw [hne, List.nil_append, List.nil_append, ofNames_singleton, ofNames_singleton]
  · rw [ofNames_append hne (List.cons_ne_nil _ _), ofNames_append hne (List.cons_ne_nil _ _),
      ofNames_singleton, ofNames_singleton, String.append_assoc]

end Path

/-! ## The files that may be meant -/

namespace Resolver

open LiveCheck.Path

variable {base importer package name dotted : String} {ns parts : List String}

private theorem normal_candidatesIn (hbase : Normalized base)
    (hparts : ∀ name ∈ parts, Plain name) :
    ∀ path ∈ candidatesIn base parts, Normalized path := by
  obtain ⟨ns, hns, rfl⟩ := normal_iff.mp hbase
  have hall : ∀ name ∈ ns ++ parts, Plain name := fun name hname =>
    (List.mem_append.mp hname).elim (hns name) (hparts name)
  intro path hpath
  rw [candidatesIn, foldl_join_ofNames hns hparts] at hpath
  rcases List.mem_append.mp hpath with hpath | hpath
  · split at hpath
    · cases hpath
    rename_i hne
    obtain ⟨ext, hext, rfl⟩ := List.mem_map.mp hpath
    rcases List.eq_nil_or_concat parts with rfl | ⟨init, last, rfl⟩
    · exact absurd rfl hne
    have hlast : Plain last := hparts last (by simp)
    rw [List.concat_eq_append, ← List.append_assoc, String.append_assoc, ofNames_concat,
      ← String.append_assoc]
    refine normal_ofNames fun name hname => ?_
    rcases List.mem_append.mp hname with hname | hname
    · refine hall name ?_
      rw [List.concat_eq_append, ← List.append_assoc]
      exact List.mem_append_left _ hname
    · rw [List.mem_singleton.mp hname]
      exact plain_source ⟨hlast.slash, hlast.backslash⟩ hext
  · obtain ⟨file, hfile, rfl⟩ := List.mem_map.mp hpath
    rw [join_ofNames hall]
    refine normal_ofNames fun name hname => (List.mem_append.mp hname).elim (hall name)
      fun hname => ?_
    rw [List.mem_singleton.mp hname]
    exact plain_packageFile hfile

private theorem normal_ascend {directory found : String} (levels : Nat) (h : Normalized directory)
    (hfound : ascend levels directory = some found) : Normalized found := by
  induction levels generalizing directory with
  | zero => exact Option.some.inj hfound ▸ h
  | succ levels ih =>
    rw [ascend] at hfound
    split at hfound
    · cases hfound
    · exact ih (normal_parent h) hfound

private theorem normal_absoluteBases (roots searchPaths : List String) (h : Normalized importer) :
    ∀ base ∈ (ofPaths roots searchPaths).absoluteBases importer, Normalized base := by
  intro base hbase
  rcases List.mem_cons.mp (List.mem_eraseDups.mp hbase) with rfl | hbase
  · exact normal_parent h
  · rcases List.mem_append.mp hbase with hbase | hbase <;>
      obtain ⟨path, -, rfl⟩ := List.mem_map.mp hbase <;> exact normal_normalize path

private theorem normal_candidates (roots searchPaths : List String)
    (himporter : Normalized importer)
    (hdotted : Slashless dotted) (level : Nat) :
    ∀ path ∈ (ofPaths roots searchPaths).candidates importer dotted level, Normalized path := by
  have hparts : ∀ name ∈ Text.parts '.' dotted, Plain name := fun _ => plain_of_mem_parts hdotted
  intro path hpath
  unfold candidates at hpath
  dsimp only at hpath
  split at hpath
  · split at hpath
    · cases hpath
    obtain ⟨base, hbase, hpath⟩ := List.mem_flatMap.mp hpath
    exact normal_candidatesIn (normal_absoluteBases roots searchPaths himporter base hbase) hparts
      path hpath
  · rename_i levels
    cases hfound : ascend levels (parent importer) with
    | none =>
      rw [hfound] at hpath
      cases hpath
    | some base =>
      rw [hfound] at hpath
      exact normal_candidatesIn (normal_ascend levels (normal_parent himporter) hfound) hparts
        path hpath

private theorem candidatesIn_empty : candidatesIn "" [""] =
    [".pyi", ".py", "__init__.pyi", "__init__.py"] := by decide

private theorem exists_not_normal (hns : ∀ name ∈ ns, Plain name) (hne : ns ≠ []) :
    ∃ path ∈ candidatesIn (ofNames ns) [""], ¬ Normalized path := by
  have hbase : ofNames ns ≠ "" :=
    ofNames_ne_empty (fun name hname => (hns name hname).nonempty) hne
  have hdouble : join (join (ofNames ns) "") "__init__.py" =
      ofNames (ns ++ ["", "__init__.py"]) := by
    rw [join_of_ne hbase, join_of_ne (by simp), ofNames_append hne (List.cons_ne_nil _ _),
      ofNames_cons (List.cons_ne_nil _ _), ofNames_singleton]
    simp [String.append_assoc]
  refine ⟨_, List.mem_append_right _ (List.mem_map.mpr ⟨"__init__.py", by decide, rfl⟩), ?_⟩
  rw [List.foldl_cons, List.foldl_nil, hdouble]
  intro hnormal
  obtain ⟨ms, hms, heq⟩ := normal_iff.mp hnormal
  have hslash : ∀ name ∈ ns ++ ["", "__init__.py"], '/' ∉ name.toList := by
    intro name hname
    rcases List.mem_append.mp hname with hname | hname
    · exact (hns name hname).slash
    · rcases List.mem_cons.mp hname with rfl | hname
      · decide
      · rw [List.mem_singleton.mp hname]
        decide
  have hsplit := split_ofNames hslash (by simp)
  rw [heq] at hsplit
  by_cases hmne : ms = []
  · subst hmne
    have hlength := congrArg List.length hsplit
    rw [List.length_append] at hlength
    have hpos := List.length_pos_of_ne_nil hne
    have hone : (Text.split '/' (ofNames [])).length = 1 := rfl
    simp only [List.length_cons, List.length_nil] at hlength
    omega
  · rw [split_ofNames (fun name hname => (hms name hname).slash) hmne] at hsplit
    exact (hms "" (by rw [hsplit]; simp)).nonempty rfl

private theorem normal_submoduleCandidates_iff (h : Normalized package)
    (hname : Plain name ∨ name = "") :
    (∀ path ∈ submoduleCandidates package name, Normalized path) ↔
      Plain name ∨ isPackageFile package = false ∨ parent package = "" := by
  rw [submoduleCandidates]
  cases hpackage : isPackageFile package with
  | false => exact iff_of_true (fun path hpath => by cases hpath) (.inr (.inl rfl))
  | true =>
    rw [if_pos rfl]
    constructor
    · intro hall
      rcases hname with hname | rfl
      · exact .inl hname
      refine .inr (.inr (Decidable.byContradiction fun hroot => ?_))
      obtain ⟨ns, hns, heq⟩ := normal_iff.mp (normal_parent h)
      rw [heq] at hall hroot
      obtain ⟨path, hpath, hnot⟩ := exists_not_normal hns fun hnil => hroot (by rw [hnil]; rfl)
      exact hnot (hall path hpath)
    · rintro (hname | hfalse | hroot)
      · exact normal_candidatesIn (normal_parent h) fun n hn => List.mem_singleton.mp hn ▸ hname
      · cases hfalse
      · rcases hname with hname | rfl
        · exact normal_candidatesIn (normal_parent h) fun n hn => List.mem_singleton.mp hn ▸ hname
        · rw [hroot, candidatesIn_empty]
          exact (by decide : ∀ path ∈ [".pyi", ".py", "__init__.pyi", "__init__.py"],
            normalize path = path)

end Resolver

/-! ## What the tables of a file ask for -/

namespace Binding

open LiveCheck.Path

variable {a : Arena} {b c : Binding} {dotted : String} {level : Nat}

/-- The tables of a file speak of a module: an import mentions it, or a name comes from it. -/
def Requests (b : Binding) (dotted : String) (level : Nat) : Prop :=
  (∃ record ∈ b.imports, (dotted, level) ∈ (record.path, record.level) :: record.mentioned) ∨
    ∃ d ∈ b.declarations, ∃ target ∈ d.origin, (dotted, level) = (target.path, target.level)

/-- No import has a slash in it. -/
private structure SlashlessImports (b : Binding) : Prop where
  imports : ∀ record ∈ b.imports, ∀ dotted ∈ record.path :: record.names, Slashless dotted
  origins : ∀ d ∈ b.declarations, ∀ target ∈ d.origin, Slashless target.path

private theorem SlashlessImports.congr (h : b.SlashlessImports) (himports : c.imports = b.imports)
    (hdeclarations : c.declarations = b.declarations) : c.SlashlessImports :=
  ⟨himports ▸ h.imports, hdeclarations ▸ h.origins⟩

private theorem SlashlessImports.push (h : b.SlashlessImports) {d : Declaration}
    (himports : c.imports = b.imports) (hdeclarations : c.declarations = b.declarations.push d)
    (hd : ∀ target ∈ d.origin, Slashless target.path) : c.SlashlessImports := by
  refine ⟨himports ▸ h.imports, fun e he => ?_⟩
  rw [hdeclarations] at he
  rcases Array.mem_push.mp he with he | rfl
  · exact h.origins e he
  · exact hd

private theorem slashless_dottedText (ha : a.Named Spelled) (path : List NodeId) :
    Slashless (a.dottedText path) := by
  refine slashless_dots fun name hname => ?_
  obtain ⟨node, -, rfl⟩ := List.mem_map.mp hname
  cases htext : a.nameText? node with
  | none => exact ⟨by decide, by decide⟩
  | some text => exact slashless_of_spelled (ha.nameText? htext)

private theorem Step.slashlessImports {ns : List NodeId} (ha : a.Named Spelled)
    (hstep : Step a b ns c)
    (h : b.SlashlessImports) : c.SlashlessImports := by
  cases hstep with
  | addImport record hspan hdotted =>
    refine ⟨fun other hother dotted hmem => ?_, h.origins⟩
    rcases Array.mem_push.mp hother with hother | rfl
    · exact h.imports other hother dotted hmem
    · obtain ⟨path, rfl⟩ := hdotted dotted hmem
      exact slashless_dottedText ha path
  | declare ctx kind name node owner span hint origin hscope hkind horigin =>
    obtain ⟨hdeclarations, -, himports, -⟩ :=
      rest_symbolFor b (b.targetScope ctx.scope name) (kind == .instanceAttribute) name
    refine h.push himports (congrArg (Array.push · _) hdeclarations) fun target htarget => ?_
    obtain ⟨path, hpath⟩ := horigin target htarget
    exact hpath ▸ slashless_dottedText ha path
  | declareAttribute ctx scope name node owner span hint hclass =>
    obtain ⟨hdeclarations, -, himports, -⟩ := rest_symbolFor b scope true name
    exact h.push himports (congrArg (Array.push · _) hdeclarations) nofun
  | report code span arg => exact h.congr rfl rfl
  | openScope kind parent node hkind hparent => exact h.congr rfl rfl
  | useName ctx node => exact h.congr rfl rfl
  | exports names => exact h.congr rfl rfl
  | note scope f hf => exact h.congr rfl rfl

private theorem SlashlessImports.addWildcardNames (h : b.SlashlessImports) (importIndex : Nat)
    (names : List String) : (b.addWildcardNames importIndex names).SlashlessImports := by
  unfold Binding.addWildcardNames
  split
  · next record hrecord =>
    have hpath : Slashless record.path :=
      h.imports record (Array.mem_of_getElem? hrecord) _ List.mem_cons_self
    clear hrecord
    induction names generalizing b with
    | nil => exact h
    | cons name names ih =>
      refine ih ?_
      obtain ⟨hdeclarations, -, himports, -⟩ := rest_symbolFor b 0 false name
      rw [addWildcardName, moduleSymbol_eq]
      exact h.push himports (congrArg (Array.push · _) hdeclarations) fun target htarget =>
        Option.some.inj htarget ▸ hpath
  · exact h

private theorem slashlessImports_bind (t : Tree) (ht : t.arena.Named Spelled) :
    t.bind.SlashlessImports := by
  obtain ⟨_, hwalks, -⟩ := t.walks
  have hwalked : t.walked.SlashlessImports := by
    refine hwalks.induct (fun _ _ _ hstep h => hstep.slashlessImports ht h) ⟨?_, ?_⟩ <;>
      exact fun _ hmem => by simp [Tree.unbound, openScope] at hmem
  rw [t.bind_eq]
  refine ⟨hwalked.imports, fun d hd => ?_⟩
  obtain ⟨e, he, rfl⟩ := Array.mem_map.mp hd
  exact hwalked.origins e he

private theorem slashless_dottedPrefixes {done parts : List String}
    (h : ∀ name ∈ done ++ parts, Slashless name) :
    ∀ dotted ∈ dottedPrefixes done parts, Slashless dotted := by
  induction parts generalizing done with
  | nil => exact fun _ hmem => by cases hmem
  | cons part parts ih =>
    rw [List.append_cons] at h
    intro dotted hdotted
    rcases List.mem_cons.mp hdotted with rfl | hdotted
    · exact slashless_dots fun name hname => h name (List.mem_append_left _ hname)
    · exact ih h dotted hdotted

private theorem slashless_mentioned {record : ImportRecord}
    (h : ∀ dotted ∈ record.path :: record.names, Slashless dotted)
    (hmem : (dotted, level) ∈ record.mentioned) : Slashless dotted := by
  have hpath : Slashless record.path := h _ List.mem_cons_self
  rcases List.mem_append.mp hmem with hmem | hmem
  · split at hmem
    · obtain ⟨found, hfound, heq⟩ := List.mem_map.mp hmem
      obtain ⟨rfl, -⟩ := Prod.mk.inj heq
      refine slashless_dottedPrefixes (fun name hname => ?_) found hfound
      have hsub := Text.subset_of_mem_split (List.mem_filter.mp hname).1
      exact ⟨fun hslash => hpath.slash (hsub hslash), fun hslash => hpath.backslash (hsub hslash)⟩
    · obtain ⟨rfl, -⟩ := Prod.mk.inj (List.mem_singleton.mp hmem)
      exact hpath
  · split at hmem
    · cases hmem
    obtain ⟨name, hname, heq⟩ := List.mem_map.mp hmem
    obtain ⟨rfl, -⟩ := Prod.mk.inj heq
    have hslashless : Slashless name := h name (List.mem_cons_of_mem _ hname)
    split
    · exact hslashless
    · exact (hpath.append ⟨by decide, by decide⟩).append hslashless

private theorem SlashlessImports.requests (h : b.SlashlessImports)
    (hrequests : b.Requests dotted level) :
    Slashless dotted := by
  rcases hrequests with ⟨record, hrecord, hmem⟩ | ⟨d, hd, target, htarget, heq⟩
  · rcases List.mem_cons.mp hmem with heq | hmem
    · obtain ⟨rfl, -⟩ := Prod.mk.inj heq
      exact h.imports record hrecord _ List.mem_cons_self
    · exact slashless_mentioned (h.imports record hrecord) hmem
  · obtain ⟨rfl, -⟩ := Prod.mk.inj heq
    exact h.origins d hd target htarget

end Binding

/-! ## All paths that are asked for -/

namespace Resolver

open LiveCheck.Path

/-- **Imports ask for normal paths.** Whatever the tables of a file say about imports, the files
that may be meant have normal paths. The same holds of the members of a package, except where a name
is missing in a package that is not at the root. -/
theorem normal_paths_asked (text : String) (brought : List (Nat × List String))
    (roots searchPaths : List String) {importer : String} (himporter : Normalized importer) :
    (∀ dotted level,
      (brought.foldl (fun b (names : Nat × List String) => b.addWildcardNames names.1 names.2)
        (parse text).tree.bind).Requests dotted level →
      (∀ path ∈ (ofPaths roots searchPaths).candidates importer dotted level, Normalized path) ∧
        ∀ present path, (ofPaths roots searchPaths).resolve? present importer dotted level =
          some path → Normalized path) ∧
      ∀ node,
        (∀ path ∈ submoduleCandidates importer
          (((parse text).tree.arena.nameText? node).getD ""), Normalized path) ↔
        ((parse text).tree.arena.nameText? node).isSome ∨ isPackageFile importer = false ∨
          parent importer = "" := by
  constructor
  · intro dotted level hrequests
    have himports : (brought.foldl (fun b (names : Nat × List String) =>
        b.addWildcardNames names.1 names.2) (parse text).tree.bind).SlashlessImports := by
      have hbind := Binding.slashlessImports_bind _ (spelled_parse text)
      clear hrequests
      generalize (parse text).tree.bind = b at hbind
      induction brought generalizing b with
      | nil => exact hbind
      | cons names brought ih => exact ih _ (hbind.addWildcardNames names.1 names.2)
    have hall := normal_candidates roots searchPaths himporter (himports.requests hrequests) level
    exact ⟨hall, fun present path hfound => hall path (List.mem_of_find?_eq_some hfound)⟩
  · intro node
    cases htext : (parse text).tree.arena.nameText? node with
    | none =>
      rw [Option.getD_none, normal_submoduleCandidates_iff himporter (.inr rfl)]
      have hempty : ¬ Plain "" := fun h => h.nonempty rfl
      simp [hempty]
    | some name =>
      have hname : Plain name := plain_of_spelled ((spelled_parse text).nameText? htext)
      rw [Option.getD_some, normal_submoduleCandidates_iff himporter (.inl hname)]
      simp [hname]

/-- The imports of a package. -/
theorem normal_paths_asked_package : Normalized "pkg/__init__.py" ∧
    ∀ dotted level,
      (parse "from . import x\nfrom ..y import *\n").tree.bind.Requests dotted level →
      ∀ path ∈ (ofPaths ["src"] ["./lib"]).candidates "pkg/__init__.py" dotted level,
        Normalized path := by
  have himporter : Normalized "pkg/__init__.py" := by
    rw [Normalized]
    decide
  exact ⟨himporter, fun dotted level hrequests =>
    ((normal_paths_asked _ [] ["src"] ["./lib"] himporter).1 dotted level hrequests).1⟩

/-- Where a name is missing in a package, its own file is found under a second path. -/
theorem submodule?_not_normal : Normalized "pkg/__init__.py" ∧
    (parse "import pkg\npkg.\n").tree.arena.data? 5 = some (.member 3 4) ∧
      (parse "import pkg\npkg.\n").tree.arena.nameText? 4 = none ∧
      submodule? (normalize · == "pkg/__init__.py") "pkg/__init__.py" "" =
        some "pkg//__init__.py" ∧ ¬ Normalized "pkg//__init__.py" := by
  rw [Normalized, Normalized]
  exact ⟨by decide, by decide +kernel, by decide +kernel, by decide, by decide⟩

end Resolver
end LiveCheck
