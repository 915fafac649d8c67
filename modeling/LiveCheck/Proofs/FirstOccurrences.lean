import Mathlib.Data.List.Induction
import Mathlib.Data.List.Nodup

/-!
# First occurrences

A list without its repetitions has each member once, in the order of the first occurrences. Taking
repetitions out of parts of a list first makes no difference.
-/

namespace LiveCheck

variable {α : Type} [BEq α] {l firsts : List α}

/-- The second list has the members of the first, in the order in which they first occur there. So
it has each of them once. -/
structure FirstOccurrences (l firsts : List α) : Prop where
  mem_iff : ∀ a, a ∈ firsts ↔ a ∈ l
  ordered : firsts.Pairwise fun a b => l.idxOf a < l.idxOf b

private theorem FirstOccurrences.nodup (h : FirstOccurrences l firsts) : firsts.Nodup := by
  refine h.ordered.imp fun hlt heq => ?_
  rw [heq] at hlt
  exact Nat.lt_irrefl _ hlt

variable [LawfulBEq α]

theorem eraseDups_append_singleton (l : List α) (a : α) :
    (l ++ [a]).eraseDups = if a ∈ l.eraseDups then l.eraseDups else l.eraseDups ++ [a] := by
  rw [List.eraseDups_append, List.removeAll]
  by_cases hmem : a ∈ l
  · simp [hmem]
  · simp [hmem, List.eraseDups_cons]

theorem firstOccurrences_eraseDups (l : List α) : FirstOccurrences l l.eraseDups := by
  refine ⟨fun a => List.mem_eraseDups, ?_⟩
  induction l using List.reverseRecOn with
  | nil => exact .nil
  | append_singleton l a ih =>
    have hkept : l.eraseDups.Pairwise fun b c => (l ++ [a]).idxOf b < (l ++ [a]).idxOf c := by
      refine ih.imp_of_mem fun {b c} hb hc hlt => ?_
      rwa [List.idxOf_append_of_mem (List.mem_eraseDups.mp hb),
        List.idxOf_append_of_mem (List.mem_eraseDups.mp hc)]
    rw [eraseDups_append_singleton]
    split
    · exact hkept
    · next hnew =>
      refine List.pairwise_append.mpr ⟨hkept, List.pairwise_singleton _ _, fun b hb c hc => ?_⟩
      have hb := List.mem_eraseDups.mp hb
      rw [List.mem_singleton.mp hc, List.idxOf_append_of_mem hb,
        List.idxOf_append_of_notMem fun hmem => hnew (List.mem_eraseDups.mpr hmem)]
      exact Nat.lt_add_right _ (List.idxOf_lt_length_of_mem hb)

/-- Without its repetitions a list has none. -/
theorem nodup_eraseDups (l : List α) : l.eraseDups.Nodup := (firstOccurrences_eraseDups l).nodup

/-- A list without repetitions stays as it is. -/
theorem eraseDups_of_nodup (h : l.Nodup) : l.eraseDups = l := by
  induction l using List.reverseRecOn with
  | nil => rfl
  | append_singleton l a ih =>
    obtain ⟨hl, -, hdisjoint⟩ := List.nodup_append.mp h
    have hnew : a ∉ l := fun hmem => hdisjoint a hmem a (List.mem_singleton_self a) rfl
    rw [eraseDups_append_singleton, ih hl, if_neg hnew]

/-- Repetitions may be taken out of the parts of a list before they are taken out of the whole. -/
theorem eraseDups_append_eraseDups (l l' : List α) :
    (l.eraseDups ++ l'.eraseDups).eraseDups = (l ++ l').eraseDups := by
  induction l' using List.reverseRecOn with
  | nil => simpa using eraseDups_of_nodup (nodup_eraseDups l)
  | append_singleton l' a ih =>
    rw [eraseDups_append_singleton, ← List.append_assoc, eraseDups_append_singleton, ← ih]
    by_cases ha' : a ∈ l'
    · simp [ha']
    · rw [if_neg (mt List.mem_eraseDups.mp ha'), ← List.append_assoc, eraseDups_append_singleton]

theorem eraseDups_append_self (l : List α) : (l ++ l).eraseDups = l.eraseDups := by
  have hnone : l.filter (fun a => !l.elem a) = [] :=
    List.filter_eq_nil_iff.mpr fun a ha => by simpa using ha
  rw [List.eraseDups_append, List.removeAll, hnone, List.eraseDups_nil, List.append_nil]

end LiveCheck
