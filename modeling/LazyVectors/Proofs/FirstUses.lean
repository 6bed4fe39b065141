import Mathlib.Data.List.Induction
set_option autoImplicit false

namespace LazyVectors

variable {α : Type} [BEq α] [LawfulBEq α]

theorem eraseDups_snoc_of_mem {xs : List α} {a : α} (h : a ∈ xs) :
    (xs ++ [a]).eraseDups = xs.eraseDups := by
  simp [List.eraseDups_append, List.removeAll, h]

theorem eraseDups_snoc_of_notMem {xs : List α} {a : α} (h : a ∉ xs) :
    (xs ++ [a]).eraseDups = xs.eraseDups ++ [a] := by
  rw [List.eraseDups_append]
  simp [List.removeAll, h, List.eraseDups_cons]

theorem nodup_eraseDups (xs : List α) : xs.eraseDups.Nodup := by
  induction xs using List.reverseRecOn with
  | nil => exact List.nodup_nil
  | append_singleton xs a ih =>
    by_cases h : a ∈ xs
    · rwa [eraseDups_snoc_of_mem h]
    · rw [eraseDups_snoc_of_notMem h]
      have hne : ∀ b, b ∈ xs → b ≠ a := fun b hb heq => h (heq ▸ hb)
      simpa [List.nodup_append, ih] using hne

theorem eraseDups_filter (keep : α → Bool) (xs : List α) :
    (xs.filter keep).eraseDups = xs.eraseDups.filter keep := by
  induction xs using List.reverseRecOn with
  | nil => rfl
  | append_singleton xs a ih =>
    by_cases hin : a ∈ xs <;> cases hkeep : keep a
    · simp [eraseDups_snoc_of_mem hin, List.filter_append, hkeep, ih]
    · have hin' : a ∈ xs.filter keep := List.mem_filter.2 ⟨hin, hkeep⟩
      simp [eraseDups_snoc_of_mem hin, List.filter_append, hkeep, eraseDups_snoc_of_mem hin', ih]
    · simp [eraseDups_snoc_of_notMem hin, List.filter_append, hkeep, ih]
    · have hin' : a ∉ xs.filter keep := fun h => hin (List.mem_filter.1 h).1
      simp [eraseDups_snoc_of_notMem hin, List.filter_append, hkeep,
        eraseDups_snoc_of_notMem hin', ih]

/-- An entry put in front is met first, wherever it was met before. -/
theorem eraseDups_cons_eq_erase (a : α) (xs : List α) :
    (a :: xs).eraseDups = a :: xs.eraseDups.erase a := by
  rw [List.eraseDups_cons, eraseDups_filter, (nodup_eraseDups xs).erase_eq_filter]
  rfl

theorem take_erase (a : α) (xs : List α) (n : Nat) :
    (xs.erase a).take n = ((xs.take (n + 1)).erase a).take n := by
  induction xs generalizing n with
  | nil => simp
  | cons b xs ih =>
    by_cases h : b = a
    · simp [h, List.take_take]
    · have hne : (b == a) = false := beq_eq_false_iff_ne.2 h
      cases n with
      | zero => rfl
      | succ n => simp [hne, ih]

theorem mem_take_eraseDups {a : α} {xs : List α} {n : Nat} :
    a ∈ xs.eraseDups.take n ↔
      ∃ before after, xs = before ++ a :: after ∧ a ∉ before ∧ before.eraseDups.length < n := by
  have hsplit {before after : List α} (hnot : a ∉ before) :
      (before ++ a :: after).eraseDups = before.eraseDups ++
        a :: ((after.removeAll before).filter fun b => !b == a).eraseDups := by
    rw [List.eraseDups_append, List.cons_removeAll, if_pos (by simpa using hnot),
      List.eraseDups_cons]
  constructor
  · intro h
    obtain ⟨before, after, rfl, hnot⟩ :=
      List.eq_append_cons_of_mem (List.mem_eraseDups.1 (List.mem_of_mem_take h))
    refine ⟨before, after, rfl, hnot, Nat.lt_of_not_le fun hle => hnot ?_⟩
    rw [hsplit hnot, List.take_append_of_le_length hle] at h
    exact List.mem_eraseDups.1 (List.mem_of_mem_take h)
  · rintro ⟨before, after, rfl, hnot, hlt⟩
    obtain ⟨k, hk⟩ : ∃ k, n - before.eraseDups.length = k + 1 :=
      ⟨_, (Nat.succ_pred (by omega)).symm⟩
    rw [hsplit hnot, List.take_append, hk]
    simp

end LazyVectors
