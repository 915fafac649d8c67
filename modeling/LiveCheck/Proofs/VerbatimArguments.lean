import LiveCheck.Diagnostic
import Mathlib.Data.List.Infix

/-!
# Arguments in messages

The arguments of a message are put into the places of its template one after the other, each into
the text that the earlier ones have left. This is the same as filling all places at once if no
argument brings about a place for a later one. Of a template with a place for any argument but the
last, no more can be said: there are arguments that come out changed.
-/

/-! ## Filling places at once -/

namespace LiveCheck

/-- Fills the places with the given numbers, all at once: what is put in is not looked at again. The
first `skip` characters are dropped. -/
def fillPlaces (texts : List (Nat × List Char)) : Nat → List Char → List Char
  | _, [] => []
  | skip + 1, _ :: cs => fillPlaces texts skip cs
  | 0, c :: cs =>
    match texts.find? fun text => (placeholder text.1).isPrefixOf (c :: cs) with
    | some (index, text) => text ++ fillPlaces texts ((placeholder index).length - 1) cs
    | none => c :: fillPlaces texts 0 cs

/-- Arguments with the numbers of their places. -/
def numberedArgs (args : List String) : List (Nat × List Char) :=
  args.zipIdx.map fun (arg, index) => (index, arg.toList)

/-- The message of a template with all arguments put into their places at once. -/
def formatAtOnce (template : String) (args : List String) : String :=
  String.ofList (fillPlaces (numberedArgs args) 0 template.toList)

/-- How often a piece stands in a text. -/
def occurrences (piece text : List Char) : Nat := text.tails.countP piece.isPrefixOf

/-- Filling in any number of the arguments brings about no further place for the next one. -/
def Undisturbed (template : String) (args : List String) : Prop :=
  ∀ n < args.length,
    occurrences (placeholder n) (fillPlaces (numberedArgs (args.take n)) 0 template.toList) =
      occurrences (placeholder n) template.toList

variable {c : Char} {cs text piece more rest template : List Char} {i j n : Nat}
  {texts : List (Nat × List Char)} {arg : String} {args : List String}

/-! ### Places -/

private def placeRest (index : Nat) : List Char := (Nat.repr index).toList ++ ['\x7d']

private theorem placeholder_eq (index : Nat) : placeholder index = '\x7b' :: placeRest index := rfl

private theorem isDigit_of_mem_repr (h : c ∈ (Nat.repr n).toList) : c.isDigit = true := by
  rw [Nat.toList_repr] at h
  exact Nat.isDigit_of_mem_toDigits (by decide) (by decide) h

private theorem brace_notMem_placeRest (index : Nat) : '\x7b' ∉ placeRest index := by
  intro h
  rcases List.mem_append.mp h with h | h
  · exact absurd (isDigit_of_mem_repr h) (by decide)
  · exact absurd (List.mem_singleton.mp h) (by decide)

private theorem eq_of_placeholder_append (h : placeholder i ++ rest = placeholder j ++ more) :
    i = j := by
  have htake (index : Nat) (rest : List Char) :
      ((Nat.repr index).toList ++ '\x7d' :: rest).takeWhile (· != '\x7d') =
        Nat.toDigits 10 index := by
    rw [List.takeWhile_append_of_pos fun c hc => ?_, Nat.toList_repr]
    · simp
    · rw [bne_iff_ne]
      rintro rfl
      exact absurd (isDigit_of_mem_repr hc) (by decide)
  simp only [placeholder, List.cons_append, List.append_assoc, List.nil_append] at h
  have hdigits := congrArg (List.takeWhile (· != '\x7d')) (List.cons.inj h).2
  rw [htake, htake] at hdigits
  have hvalue := congrArg (Nat.ofDigitChars 10 · 0) hdigits
  simpa using hvalue

private theorem placeholder_prefix_iff : placeholder i <+: placeholder j ++ rest ↔ i = j := by
  constructor
  · rintro ⟨more, hmore⟩
    exact eq_of_placeholder_append hmore
  · rintro rfl
    exact List.prefix_append _ _

private theorem not_prefix_placeholder (hc : c ≠ '\x7b') : ¬ placeholder i <+: c :: cs :=
  fun h => hc (List.cons_prefix_cons.mp h).1.symm

private theorem placeInduction {motive : List Char → Prop} (nil : motive [])
    (place : ∀ i rest, motive rest → motive (placeholder i ++ rest))
    (other : ∀ c cs, (∀ i, ¬ placeholder i <+: c :: cs) → motive cs → motive (c :: cs))
    (text : List Char) : motive text := by
  generalize hn : text.length = n
  induction n using Nat.strongRecOn generalizing text with
  | _ n ih =>
    subst hn
    cases text with
    | nil => exact nil
    | cons c cs =>
      by_cases hplace : ∃ i, placeholder i <+: c :: cs
      · obtain ⟨i, rest, hrest⟩ := hplace
        rw [← hrest]
        refine place i rest (ih rest.length ?_ rest rfl)
        rw [← hrest, List.length_append, placeholder_eq, List.length_cons]
        omega
      · exact other c cs (not_exists.mp hplace) (ih cs.length (Nat.lt_succ_self _) cs rfl)

/-! ### Laws of filling -/

private theorem fillPlaces_skip (texts : List (Nat × List Char)) (piece rest : List Char) :
    fillPlaces texts piece.length (piece ++ rest) = fillPlaces texts 0 rest := by
  induction piece with
  | nil => rfl
  | cons c cs ih => exact ih

private theorem fillPlaces_cons (h : ∀ entry ∈ texts, ¬ placeholder entry.1 <+: c :: cs) :
    fillPlaces texts 0 (c :: cs) = c :: fillPlaces texts 0 cs := by
  have hnone : texts.find? (fun text => (placeholder text.1).isPrefixOf (c :: cs)) = none :=
    List.find?_eq_none.mpr fun entry hentry hbegins =>
      h entry hentry (List.isPrefixOf_iff_prefix.mp hbegins)
  rw [fillPlaces, hnone]

private theorem fillPlaces_append (hpiece : '\x7b' ∉ piece) :
    fillPlaces texts 0 (piece ++ rest) = piece ++ fillPlaces texts 0 rest := by
  induction piece with
  | nil => rfl
  | cons c cs ih =>
    obtain ⟨hc, hcs⟩ := not_or.mp (List.mem_cons.not.mp hpiece)
    rw [List.cons_append, fillPlaces_cons fun _ _ => not_prefix_placeholder (Ne.symm hc), ih hcs,
      List.cons_append]

private theorem find?_placeholder (texts : List (Nat × List Char)) (i : Nat) (rest : List Char) :
    (texts.find? fun text => (placeholder text.1).isPrefixOf (placeholder i ++ rest)) =
      (texts.lookup i).map (i, ·) := by
  induction texts with
  | nil => rfl
  | cons entry texts ih =>
    obtain ⟨j, text⟩ := entry
    rw [List.find?_cons, List.lookup_cons]
    by_cases hj : i = j
    · subst hj
      have hbegins := List.isPrefixOf_iff_prefix.mpr (List.prefix_append (placeholder i) rest)
      simp only [hbegins, beq_self_eq_true, Option.map_some]
    · have hbegins : (placeholder j).isPrefixOf (placeholder i ++ rest) = false := by
        rw [Bool.eq_false_iff, Ne, List.isPrefixOf_iff_prefix, placeholder_prefix_iff]
        exact Ne.symm hj
      simp only [hbegins, beq_false_of_ne hj, ih]

private theorem fillPlaces_eq_self (h : ∀ entry ∈ texts, ¬ placeholder entry.1 <:+: template) :
    fillPlaces texts 0 template = template := by
  induction template with
  | nil => rfl
  | cons c cs ih =>
    rw [fillPlaces_cons fun entry hentry hbegins => h entry hentry hbegins.isInfix,
      ih fun entry hentry hinside => h entry hentry (hinside.trans (List.suffix_cons c cs).isInfix)]

private theorem fillPlaces_nil (template : List Char) : fillPlaces [] 0 template = template :=
  fillPlaces_eq_self nofun

private theorem getD_lookup_singleton (n i : Nat) (text default : List Char) :
    (List.lookup i [(n, text)]).getD default = if i = n then text else default := by
  rw [List.lookup_cons]
  by_cases hi : i = n
  · simp [hi]
  · simp [beq_false_of_ne hi, hi]

private theorem fillPlaces_placeholder (texts : List (Nat × List Char)) (i : Nat)
    (rest : List Char) :
    fillPlaces texts 0 (placeholder i ++ rest) =
      (texts.lookup i).getD (placeholder i) ++ fillPlaces texts 0 rest := by
  have hfind := find?_placeholder texts i rest
  rw [placeholder_eq, List.cons_append] at hfind
  rw [placeholder_eq, List.cons_append, fillPlaces, hfind]
  cases texts.lookup i with
  | none =>
    show '\x7b' :: fillPlaces texts 0 (placeRest i ++ rest) = _
    rw [fillPlaces_append (brace_notMem_placeRest i)]
    rfl
  | some text =>
    have hlength : (placeholder i).length - 1 = (placeRest i).length := by
      rw [placeholder_eq, List.length_cons, Nat.add_sub_cancel]
    simp only [Option.map_some, Option.getD_some, ← placeholder_eq, hlength, fillPlaces_skip]

private theorem replaceFrom_placeholder (n : Nat) (text : List Char) (skip : Nat) (cs : List Char) :
    replaceFrom (placeholder n) text skip cs = fillPlaces [(n, text)] skip cs := by
  fun_induction replaceFrom (placeholder n) text skip cs with
  | case1 => rfl
  | case2 skip c cs ih => exact ih
  | case3 c cs hbegins ih =>
    simp only [fillPlaces, List.find?_cons, hbegins, ih]
  | case4 c cs hbegins ih =>
    simp only [fillPlaces, List.find?_cons, Bool.eq_false_iff.mpr hbegins, List.find?_nil, ih]

private theorem fillFrom_append (args : List String) (arg : String) (index : Nat)
    (template : List Char) :
    fillFrom index (args ++ [arg]) template =
      fillPlaces [(index + args.length, arg.toList)] 0 (fillFrom index args template) := by
  induction args generalizing index template with
  | nil =>
    rw [← replaceFrom_placeholder]
    rfl
  | cons first args ih =>
    rw [List.cons_append, fillFrom, ih, fillFrom, List.length_cons, Nat.add_assoc,
      Nat.add_comm 1]

private theorem numberedArgs_append (args : List String) (arg : String) :
    numberedArgs (args ++ [arg]) = numberedArgs args ++ [(args.length, arg.toList)] := by
  simp [numberedArgs, List.zipIdx_append]

private theorem lookup_numberedArgs (args : List String) (i : Nat) :
    (numberedArgs args).lookup i = args[i]?.map String.toList := by
  induction args using List.reverseRecOn with
  | nil => rfl
  | append_singleton args arg ih =>
    rw [numberedArgs_append, List.lookup_append, ih]
    rcases Nat.lt_trichotomy i args.length with hi | rfl | hi
    · simp [hi, List.getElem?_append_left hi]
    · simp
    · have hne : (i == args.length) = false := beq_false_of_ne (Nat.ne_of_gt hi)
      have hpast : (args ++ [arg])[i]? = none :=
        List.getElem?_eq_none (by rw [List.length_append]; exact hi)
      rw [hpast, List.getElem?_eq_none (Nat.le_of_lt hi), List.lookup_cons, hne]
      rfl

/-! ### Counting places -/

private theorem occurrences_nil (n : Nat) : occurrences (placeholder n) [] = 0 := rfl

private theorem occurrences_cons (piece : List Char) (c : Char) (cs : List Char) :
    occurrences piece (c :: cs) =
      occurrences piece cs + if piece.isPrefixOf (c :: cs) then 1 else 0 := by
  rw [occurrences, List.tails_cons, List.countP_cons]
  rfl

private theorem occurrences_cons_of_not (h : ¬ piece <+: c :: cs) :
    occurrences piece (c :: cs) = occurrences piece cs := by
  rw [occurrences_cons, if_neg (fun hbegins => h (List.isPrefixOf_iff_prefix.mp hbegins)),
    Nat.add_zero]

private theorem occurrences_pos_iff : 0 < occurrences piece text ↔ piece <:+: text := by
  rw [occurrences, List.countP_pos_iff, List.infix_iff_prefix_suffix]
  simp only [List.mem_tails, List.isPrefixOf_iff_prefix, and_comm]

private theorem occurrences_le_append (piece more rest : List Char) :
    occurrences piece rest ≤ occurrences piece (more ++ rest) := by
  induction more with
  | nil => exact Nat.le_refl _
  | cons c more ih =>
    rw [List.cons_append, occurrences_cons]
    exact Nat.le_trans ih (Nat.le_add_right _ _)

private theorem occurrences_append (hmore : '\x7b' ∉ more) :
    occurrences (placeholder n) (more ++ rest) = occurrences (placeholder n) rest := by
  induction more with
  | nil => rfl
  | cons c more ih =>
    obtain ⟨hc, hmore⟩ := not_or.mp (List.mem_cons.not.mp hmore)
    rw [List.cons_append, occurrences_cons_of_not (not_prefix_placeholder (Ne.symm hc)),
      ih hmore]

private theorem occurrences_placeholder (n i : Nat) (rest : List Char) :
    occurrences (placeholder n) (placeholder i ++ rest) =
      occurrences (placeholder n) rest + if n = i then 1 else 0 := by
  have hbegins : placeholder n <+: placeholder i ++ rest ↔ n = i := placeholder_prefix_iff
  rw [← List.isPrefixOf_iff_prefix, placeholder_eq i, List.cons_append] at hbegins
  rw [placeholder_eq i, List.cons_append, occurrences_cons,
    occurrences_append (brace_notMem_placeRest i)]
  simp only [hbegins]

private theorem fillPlaces_append_of_occurrences (text : List Char)
    (h : occurrences (placeholder n) (more ++ rest) = occurrences (placeholder n) rest) :
    fillPlaces [(n, text)] 0 (more ++ rest) = more ++ fillPlaces [(n, text)] 0 rest := by
  induction more with
  | nil => rfl
  | cons c more ih =>
    have hle := occurrences_le_append (placeholder n) more rest
    rw [List.cons_append, occurrences_cons] at h
    have hnot : ¬ (placeholder n).isPrefixOf (c :: (more ++ rest)) = true := by
      intro hbegins
      rw [if_pos hbegins] at h
      omega
    rw [if_neg hnot] at h
    rw [List.isPrefixOf_iff_prefix] at hnot
    rw [List.cons_append, fillPlaces_cons (by simpa using hnot), ih h, List.cons_append]

private theorem occurrences_le_fillPlaces (hn : texts.lookup n = none) (template : List Char) :
    occurrences (placeholder n) template ≤
      occurrences (placeholder n) (fillPlaces texts 0 template) := by
  induction template using placeInduction with
  | nil => exact Nat.le_refl _
  | place i rest ih =>
    rw [fillPlaces_placeholder, occurrences_placeholder]
    cases hi : texts.lookup i with
    | none =>
      rw [Option.getD_none, occurrences_placeholder]
      exact Nat.add_le_add_right ih _
    | some text =>
      have hne : n ≠ i := by
        rintro rfl
        rw [hn] at hi
        cases hi
      rw [if_neg hne]
      exact Nat.le_trans ih (occurrences_le_append _ _ _)
  | other c cs hc ih =>
    rw [fillPlaces_cons fun _ _ => hc _, occurrences_cons_of_not (hc n)]
    exact Nat.le_trans ih (occurrences_le_append _ [c] _)

/-! ## One argument after the other -/

private theorem fillPlaces_fillPlaces (hn : texts.lookup n = none)
    (h : occurrences (placeholder n) (fillPlaces texts 0 template) =
      occurrences (placeholder n) template) :
    fillPlaces [(n, text)] 0 (fillPlaces texts 0 template) =
      fillPlaces (texts ++ [(n, text)]) 0 template := by
  induction template using placeInduction with
  | nil => rfl
  | place i rest ih =>
    have hle := occurrences_le_fillPlaces hn rest
    rw [fillPlaces_placeholder, fillPlaces_placeholder, List.lookup_append]
    rw [fillPlaces_placeholder, occurrences_placeholder] at h
    cases hi : texts.lookup i with
    | some filling =>
      rw [hi, Option.getD_some] at h
      have hne : n ≠ i := by
        rintro rfl
        rw [hn] at hi
        cases hi
      have hmore := occurrences_le_append (placeholder n) filling (fillPlaces texts 0 rest)
      rw [if_neg hne] at h
      rw [Option.getD_some, Option.some_or, Option.getD_some,
        fillPlaces_append_of_occurrences text (by omega), ih (by omega)]
    | none =>
      rw [hi, Option.getD_none, occurrences_placeholder] at h
      rw [Option.getD_none, Option.none_or, fillPlaces_placeholder, ih (Nat.add_right_cancel h)]
  | other c cs hc ih =>
    have hle := occurrences_le_fillPlaces hn cs
    have hmore := occurrences_le_append (placeholder n) [c] (fillPlaces texts 0 cs)
    rw [fillPlaces_cons fun _ _ => hc _, occurrences_cons_of_not (hc n)] at h
    have hskip := fillPlaces_append_of_occurrences text
      (Nat.le_antisymm (Nat.le_trans (Nat.le_of_eq h) hle) hmore)
    rw [List.singleton_append] at hskip
    rw [fillPlaces_cons fun _ _ => hc _, fillPlaces_cons fun _ _ => hc _, hskip,
      ih (Nat.le_antisymm (Nat.le_trans hmore (Nat.le_of_eq h)) hle), List.singleton_append]

private theorem lookup_numberedArgs_length (args : List String) :
    (numberedArgs args).lookup args.length = none := by
  rw [lookup_numberedArgs, List.getElem?_eq_none (Nat.le_refl _), Option.map_none]

private theorem fillFrom_eq_fillPlaces {template : String} (h : Undisturbed template args) :
    fillFrom 0 args template.toList = fillPlaces (numberedArgs args) 0 template.toList := by
  induction args using List.reverseRecOn with
  | nil => exact (fillPlaces_nil _).symm
  | append_singleton args arg ih =>
    have hearlier : Undisturbed template args := by
      intro n hn
      have hmore := h n (by rw [List.length_append]; omega)
      rwa [List.take_append_of_le_length (Nat.le_of_lt hn)] at hmore
    have hlast := h args.length (by simp)
    rw [List.take_left' rfl] at hlast
    rw [fillFrom_append, Nat.zero_add, ih hearlier, numberedArgs_append,
      fillPlaces_fillPlaces (lookup_numberedArgs_length args) hlast]

private theorem formatMessage_eq_formatAtOnce {template : String} (h : Undisturbed template args) :
    formatMessage template args = formatAtOnce template args :=
  congrArg String.ofList (fillFrom_eq_fillPlaces h)

private theorem lt_length_of_mem_numberedArgs {entry : Nat × List Char}
    (h : entry ∈ numberedArgs args) :
    entry.1 < args.length := by
  obtain ⟨⟨arg, index⟩, hmem, rfl⟩ := List.mem_map.mp h
  exact (List.getElem?_eq_some_iff.mp (List.mem_zipIdx_iff_getElem?.mp hmem)).1

private theorem undisturbed_of_last {template : String}
    (h : ∀ i, i + 1 < args.length → ¬ placeholder i <:+: template.toList) :
    Undisturbed template args := by
  intro n hn
  rw [fillPlaces_eq_self]
  intro entry hentry
  have hlt := lt_length_of_mem_numberedArgs hentry
  rw [List.length_take] at hlt
  exact h entry.1 (by omega)

/-! ### Templates with a place for an earlier argument -/

private def ownPlace (index : Nat) : String := String.ofList (placeholder index)

private theorem fillPlaces_ownPlace (n : Nat) (template : List Char) :
    fillPlaces [(n, placeholder n)] 0 template = template := by
  induction template using placeInduction with
  | nil => rfl
  | place i rest ih =>
    rw [fillPlaces_placeholder, ih, getD_lookup_singleton]
    split
    · next hi => rw [hi]
    · rfl
  | other c cs hc ih => rw [fillPlaces_cons fun _ _ => hc _, ih]

private theorem fillFrom_ownPlaces (n count : Nat) (args : List String) (template : List Char) :
    fillFrom n ((List.range' n count).map ownPlace ++ args) template =
      fillFrom (n + count) args template := by
  induction count generalizing n with
  | zero => rfl
  | succ count ih =>
    rw [List.range'_succ, List.map_cons, List.cons_append, fillFrom, ownPlace, String.toList_ofList,
      replaceFrom_placeholder, fillPlaces_ownPlace, ih, Nat.add_assoc, Nat.add_comm 1]

private theorem length_fillPlaces (n : Nat) (texts texts' : List (Nat × List Char))
    (hn : (texts.lookup n).getD (placeholder n) = [])
    (hn' : (texts'.lookup n).getD (placeholder n) = placeholder n)
    (h : ∀ i, i ≠ n →
      (texts.lookup i).getD (placeholder i) = (texts'.lookup i).getD (placeholder i))
    (template : List Char) :
    (fillPlaces texts 0 template).length +
        occurrences (placeholder n) template * (placeholder n).length =
      (fillPlaces texts' 0 template).length := by
  induction template using placeInduction with
  | nil =>
    rw [occurrences_nil, Nat.zero_mul]
    rfl
  | place i rest ih =>
    rw [fillPlaces_placeholder, fillPlaces_placeholder, occurrences_placeholder, List.length_append,
      List.length_append, ← ih]
    by_cases hi : i = n
    · subst hi
      rw [hn, hn', if_pos rfl, Nat.add_mul, Nat.one_mul, List.length_nil]
      omega
    · rw [h i hi, if_neg (Ne.symm hi), Nat.add_zero, Nat.add_assoc]
  | other c cs hc ih =>
    rw [fillPlaces_cons fun _ _ => hc _, fillPlaces_cons fun _ _ => hc _,
      occurrences_cons_of_not (hc n), List.length_cons, List.length_cons, ← ih]
    omega

private theorem occurrences_add_le (hne : i ≠ n) (template : List Char) :
    occurrences (placeholder n) template + occurrences (placeholder i) template ≤
      occurrences (placeholder n) (fillPlaces [(i, placeholder n)] 0 template) := by
  induction template using placeInduction with
  | nil => exact Nat.le_refl _
  | place j rest ih =>
    rw [fillPlaces_placeholder, occurrences_placeholder, occurrences_placeholder,
      getD_lookup_singleton]
    by_cases hj : j = i
    · subst hj
      rw [if_pos rfl, if_pos rfl, occurrences_placeholder, if_pos rfl, if_neg (Ne.symm hne)]
      omega
    · rw [if_neg hj, occurrences_placeholder, if_neg (Ne.symm hj)]
      omega
  | other c cs hc ih =>
    rw [fillPlaces_cons fun _ _ => hc _, occurrences_cons_of_not (hc n),
      occurrences_cons_of_not (hc i)]
    exact Nat.le_trans ih (occurrences_le_append _ [c] _)

private def disturbing (i count : Nat) : List String :=
  (List.range' 0 i).map ownPlace ++
    (ownPlace (i + 1) :: "" :: (List.range' (i + 2) (count - (i + 2))).map ownPlace)

private theorem length_disturbing (h : i + 1 < n) : (disturbing i n).length = n := by
  simp only [disturbing, List.length_append, List.length_map, List.length_range', List.length_cons]
  omega

private theorem fillFrom_disturbing (i count : Nat) (template : List Char) :
    fillFrom 0 (disturbing i count) template =
      fillPlaces [(i + 1, [])] 0 (fillPlaces [(i, placeholder (i + 1))] 0 template) := by
  have hbehind (text : List Char) :
      fillFrom (i + 2) ((List.range' (i + 2) (count - (i + 2))).map ownPlace) text = text := by
    have hown := fillFrom_ownPlaces (i + 2) (count - (i + 2)) [] text
    rw [List.append_nil] at hown
    exact hown
  rw [disturbing, fillFrom_ownPlaces, Nat.zero_add, fillFrom, fillFrom, hbehind,
    replaceFrom_placeholder, replaceFrom_placeholder, ownPlace, String.toList_ofList]
  simp only [String.toList_ofList]

private theorem lookup_disturbing (i count j : Nat) :
    ((numberedArgs (disturbing i count)).lookup j).getD (placeholder j) =
      if j = i then placeholder (i + 1) else if j = i + 1 then [] else placeholder j := by
  have hown (n count k : Nat) :
      ((((List.range' n count).map ownPlace)[k]?).map String.toList).getD (placeholder (n + k)) =
        placeholder (n + k) := by
    rw [List.getElem?_map]
    cases hk : (List.range' n count)[k]? with
    | none => rfl
    | some index =>
      obtain ⟨hlt, rfl⟩ := List.getElem?_eq_some_iff.mp hk
      simp [ownPlace]
  rw [lookup_numberedArgs, disturbing]
  rcases Nat.lt_trichotomy j i with hj | rfl | hj
  · rw [List.getElem?_append_left (by simpa using hj), if_neg (Nat.ne_of_lt hj), if_neg (by omega)]
    simpa using hown 0 i j
  · rw [List.getElem?_append_right (by simp), if_pos rfl]
    simp [ownPlace]
  · obtain ⟨k, rfl⟩ := Nat.exists_eq_add_of_le hj
    rw [List.getElem?_append_right (by simp; omega), if_neg (by omega), List.length_map,
      List.length_range', show i.succ + k - i = k + 1 by omega, List.getElem?_cons_succ]
    cases k with
    | zero => simp
    | succ k =>
      rw [List.getElem?_cons_succ, if_neg (by omega), show i.succ + (k + 1) = i + 2 + k by omega]
      exact hown (i + 2) _ k

private theorem formatMessage_disturbing {template : String}
    (h : placeholder i <:+: template.toList)
    (count : Nat) :
    formatMessage template (disturbing i count) ≠ formatAtOnce template (disturbing i count) := by
  intro heq
  have hlists : fillFrom 0 (disturbing i count) template.toList =
      fillPlaces (numberedArgs (disturbing i count)) 0 template.toList := by
    have hlists := congrArg String.toList heq
    rwa [formatMessage, formatAtOnce, String.toList_ofList, String.toList_ofList] at hlists
  rw [fillFrom_disturbing] at hlists
  -- At once, the places of the template are emptied; one after the other, those brought about too.
  have hatOnce := length_fillPlaces (i + 1) (numberedArgs (disturbing i count))
    [(i, placeholder (i + 1))] (by simp [lookup_disturbing]) (by simp [getD_lookup_singleton])
    (fun j hj => by simp [lookup_disturbing, getD_lookup_singleton, hj]) template.toList
  have hinTurn := length_fillPlaces (i + 1) [(i + 1, [])] [] (by simp) rfl
    (fun j hj => by simp [getD_lookup_singleton, hj])
    (fillPlaces [(i, placeholder (i + 1))] 0 template.toList)
  rw [fillPlaces_nil, hlists, ← hatOnce] at hinTurn
  have hsame := Nat.eq_of_mul_eq_mul_right (Nat.succ_pos _) (Nat.add_left_cancel hinTurn)
  have hmore := occurrences_add_le (n := i + 1) (Nat.ne_of_lt (Nat.lt_succ_self i)) template.toList
  have hpos := occurrences_pos_iff.mpr h
  omega

/-- **When arguments are inserted verbatim.** Whatever the arguments are, they come out as they are
exactly if only the last one has a place in the template. For other templates this holds as long as
filling in the earlier arguments brings about no place for a later one. -/
theorem verbatim_iff (template : String) :
    (∀ n, (∀ args : List String, args.length = n →
        formatMessage template args = formatAtOnce template args) ↔
      ∀ i, i + 1 < n → ¬ placeholder i <:+: template.toList) ∧
    ∀ args, Undisturbed template args →
      formatMessage template args = formatAtOnce template args := by
  refine ⟨fun n => ⟨fun h i hi hinside => ?_, ?_⟩, fun args => formatMessage_eq_formatAtOnce⟩
  · exact formatMessage_disturbing hinside n (h _ (length_disturbing hi))
  · rintro h args rfl
    exact formatMessage_eq_formatAtOnce (undisturbed_of_last h)

/-- Braces in the last argument, and braces that are no place, change nothing. -/
theorem verbatim_count :
    Undisturbed "Expected \x7b0\x7d positional arguments, got \x7b1\x7d"
        ["\x7b2\x7d", "\x7b0\x7d"] ∧
      formatMessage "Expected \x7b0\x7d positional arguments, got \x7b1\x7d"
          ["\x7b2\x7d", "\x7b0\x7d"] =
        formatAtOnce "Expected \x7b0\x7d positional arguments, got \x7b1\x7d"
          ["\x7b2\x7d", "\x7b0\x7d"] := by
  have h : Undisturbed "Expected \x7b0\x7d positional arguments, got \x7b1\x7d"
      ["\x7b2\x7d", "\x7b0\x7d"] := by
    unfold Undisturbed
    decide +kernel
  exact ⟨h, (verbatim_iff _).2 _ h⟩

/-- The module in the file `b.py` of a directory that has the name of a place. -/
theorem not_verbatim_module :
    formatMessage "Type '\x7b0\x7d' is not assignable to declared type '\x7b1\x7d'"
        ["Module(\"\x7b1\x7d.b\")", "int"] =
      "Type 'Module(\"int.b\")' is not assignable to declared type 'int'" ∧
    formatAtOnce "Type '\x7b0\x7d' is not assignable to declared type '\x7b1\x7d'"
        ["Module(\"\x7b1\x7d.b\")", "int"] =
      "Type 'Module(\"\x7b1\x7d.b\")' is not assignable to declared type 'int'" := by
  decide +kernel

end LiveCheck
