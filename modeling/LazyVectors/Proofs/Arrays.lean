import Mathlib.Data.List.Forall2
import LazyVectors.Proofs.Extraction
set_option autoImplicit false

namespace LazyVectors

/-- Extents are kept as integers of 32 bits, so they stay below this. -/
def extentBound : Nat := 2147483648

/-- The length of a subscript fits an extent. -/
def Subscript.Short (s : Subscript) : Prop := ∀ n, s.length? = some n → n < extentBound

def volume (ds : List Nat) : Nat := ds.foldr (· * ·) 1

theorem volume_cons (d : Nat) (ds : List Nat) : volume (d :: ds) = d * volume ds := rfl

theorem add_mul_lt {i d o n : Nat} (hi : i < d) (ho : o < n) : i + d * o < d * n :=
  calc i + d * o < d + d * o := Nat.add_lt_add_right hi _
    _ = d * (o + 1) := by rw [Nat.mul_succ, Nat.add_comm]
    _ ≤ d * n := Nat.mul_le_mul_left d ho

theorem extentProduct_eq_some {ds : List Nat} {n : Nat} (h : extentProduct ds = some n) :
    volume ds = n := by
  have hfold : ∀ p, ds.foldlM (fun p d => if p * d < UInt64.size then some (p * d) else none) p =
      some n → p * volume ds = n := by
    clear h
    induction ds with
    | nil =>
      intro p hp
      simpa [volume] using hp
    | cons d ds ih =>
      intro p hp
      rw [List.foldlM_cons] at hp
      obtain ⟨q, hq, hp⟩ := Option.bind_eq_some_iff.1 hp
      split at hq
      · cases hq
        rw [volume_cons, ← Nat.mul_assoc]
        exact ih _ hp
      · cases hq
  simpa using hfold 1 h

theorem length_labelSlots (n : Nat) (ns fresh ls : List (Option String)) :
    (labelSlots n ns fresh ls).length = ls.length := by
  induction ls generalizing fresh with
  | nil => rfl
  | cons l ls ih =>
    unfold labelSlots
    split <;> simp [ih]

namespace Selection

theorem length_excludeAscending_le (is es : List Nat) :
    (excludeAscending is es).length ≤ is.length := by
  induction is generalizing es with
  | nil => exact Nat.le_refl _
  | cons i is ih =>
    simp only [excludeAscending]
    split
    · exact Nat.le_succ_of_le (ih _)
    · exact Nat.succ_le_succ (ih _)

theorem length_ofNumbers_le {n : Nat} {ns : Option (List (Option String))}
    {ks : List (Option Int)} {q : Position} (h : Position.ofNumbers ks = .ok q) :
    (resolve n ns .replace q).indices.length ≤ max n ks.length := by
  have hwanted : (ks.filterMap Position.wanted).length ≤ ks.length := List.length_filterMap_le _ _
  simp only [Position.ofNumbers] at h
  split at h
  · cases h
    split
    · exact Nat.zero_le _
    · simp only [resolve, places, List.length_map]
      omega
  · split at h
    · cases h
    · split at h
      · cases h
      · cases h
        have hle := length_excludeAscending_le (List.range n)
          (ascending (ks.filterMap Position.unwanted))
        rw [List.length_range] at hle
        simp only [resolve, places, List.length_map]
        omega

theorem length_resolve_le {n : Nat} {ns : Option (List (Option String))} {s : Subscript}
    {q : Position} (h : s.position = .ok q) :
    (resolve n ns .replace q).indices.length ≤ max n (s.length?.getD 0) := by
  -- a mask is used over the places of the vector; numbers and labels select one place each at most
  cases s with
  | omitted =>
    cases h
    simp [resolve, places, Subscript.length?]
  | given x =>
    cases x with
    | null =>
      cases h
      exact Nat.zero_le _
    | vector v =>
      obtain ⟨d, as, c⟩ := v
      cases d with
      | logical bs =>
        cases h
        refine Nat.le_trans (List.length_filterMap_le _ _) ?_
        rw [List.length_range]
        split
        · exact Nat.zero_le _
        · exact Nat.le_refl _
      | integer ks =>
        refine Nat.le_trans (length_ofNumbers_le h) ?_
        rw [List.length_map]
        exact Nat.le_refl _
      | double xs =>
        refine Nat.le_trans (length_ofNumbers_le h) ?_
        rw [List.length_map]
        exact Nat.le_refl _
      | character ls =>
        cases h
        change (ls.foldl (addName n (ns.getD []) .replace) ⟨[], n, [], none⟩).indices.length ≤ _
        rw [foldl_addName_replace n _ ls [] _ rfl, List.nil_append, List.length_map,
          length_labelSlots]
        exact Nat.le_max_right _ _
      | _ => cases h
    | _ => cases h

/-- Coordinates that stay within their extents. -/
abbrev Within (ds : List Nat) (perDim : List (List (Option Nat))) : Prop :=
  List.Forall₂ (fun d is => ∀ i, some i ∈ is → i < d) ds perDim

theorem lt_of_mem_offsets {ds : List Nat} {perDim : List (List (Option Nat))}
    (h : Within ds perDim) {o : Nat} (ho : some o ∈ offsets ds perDim) : o < volume ds := by
  induction h generalizing o with
  | nil =>
    cases List.mem_singleton.1 ho
    exact Nat.one_pos
  | @cons d is ds rest his hrest ih =>
    obtain ⟨inner, hinner, hmem⟩ := List.mem_flatMap.1 ho
    obtain ⟨i, hi, hsum⟩ := List.mem_map.1 hmem
    obtain ⟨i', hii', hrest⟩ := Option.bind_eq_some_iff.1 hsum
    obtain ⟨o', hoo', hsum'⟩ := Option.bind_eq_some_iff.1 hrest
    have hi' : i' < d := his i' (hii' ▸ hi)
    have ho' : o' < volume ds := ih (hoo' ▸ hinner)
    rw [← Option.some.inj hsum', volume_cons]
    exact add_mul_lt hi' ho'

theorem alongExtent_eq_ok {n : Nat} {ns : Option (List (Option String))} {s : Subscript}
    {is : List (Option Nat)} (h : alongExtent n ns s = .ok is) :
    (∀ i, some i ∈ is → i < n) ∧ is.length ≤ max n (s.length?.getD 0) := by
  obtain ⟨q, hq, h⟩ := bind_eq_ok.1 h
  have hresolved : ∀ known : Bool, (if known then
      if (resolve n ns .replace q).length > n then .error (.index .outOfBounds)
      else .ok (resolve n ns .replace q).indices
    else .error (.index .outOfBounds)) = (.ok is : Except Failure (List (Option Nat))) →
      (resolve n ns .replace q).length ≤ n ∧ is = (resolve n ns .replace q).indices := by
    intro known hknown
    split at hknown
    · split at hknown
      · cases hknown
      · rename_i hlen
        cases hknown
        exact ⟨Nat.le_of_not_lt hlen, rfl⟩
    · cases hknown
  obtain ⟨hlen, rfl⟩ := hresolved _ h
  refine ⟨fun i hi => ?_, length_resolve_le hq⟩
  have hreach : i < (resolve n ns .replace q).length := lt_reach n (mem_targets.2 hi)
  omega

theorem alongExtents_eq_ok {ds : List Nat} {ls : List (Option (List (Option String)))}
    {ss : List Subscript} {perDim : List (List (Option Nat))} (hlen : ss.length = ds.length)
    (h : alongExtents ds ls ss = .ok perDim) :
    Within ds perDim ∧ ((∀ d ∈ ds, d < extentBound) → (∀ s ∈ ss, s.Short) →
      ∀ n ∈ perDim.map List.length, n < extentBound) := by
  -- extent by extent, each with its own subscript
  induction ds generalizing ls ss perDim with
  | nil =>
    cases h
    exact ⟨.nil, fun _ _ n hn => by cases hn⟩
  | cons d ds ih =>
    cases ss with
    | nil => cases hlen
    | cons s ss =>
      obtain ⟨is, his, h⟩ := bind_eq_ok.1 h
      obtain ⟨rest, hrest, h⟩ := bind_eq_ok.1 h
      cases h
      obtain ⟨hwithin, hcount⟩ := alongExtent_eq_ok his
      obtain ⟨hwithins, hcounts⟩ := ih (Nat.succ.inj hlen) hrest
      refine ⟨.cons hwithin hwithins, fun hds hss n hn => ?_⟩
      rcases List.mem_cons.1 hn with rfl | hn
      · have hd := hds d List.mem_cons_self
        have hs := hss s List.mem_cons_self
        cases hk : s.length? with
        | none =>
          rw [hk, Option.getD_none] at hcount
          omega
        | some k =>
          have hk' := hs k hk
          rw [hk, Option.getD_some] at hcount
          omega
      · exact hcounts (fun d hd => hds d (List.mem_cons_of_mem _ hd))
          (fun s hs => hss s (List.mem_cons_of_mem _ hs)) n hn

theorem ofArray_eq_ok {v : Vec Value} {ds : List Nat} {ss : List Subscript} {sel : Selection}
    (h : ofArray v ds ss = .ok sel) : ss.length = ds.length ∧ ∃ perDim,
      alongExtents ds (v.dimnames?.getD []) ss = .ok perDim ∧ Within ds perDim ∧
      sel = ⟨offsets ds perDim, v.length, [], some perDim⟩ := by
  unfold ofArray at h
  split at h
  · cases h
  · rename_i hlen
    obtain ⟨perDim, hperDim, h⟩ := bind_eq_ok.1 h
    cases h
    have hlen := Classical.not_not.1 hlen
    exact ⟨hlen, perDim, hperDim, (alongExtents_eq_ok hlen hperDim).1, rfl⟩

theorem length_ofArray {v : Vec Value} {ds : List Nat} {ss : List Subscript} {sel : Selection}
    (h : ofArray v ds ss = .ok sel) : sel.length = v.length := by
  obtain ⟨-, perDim, -, -, rfl⟩ := ofArray_eq_ok h
  rfl

theorem lt_of_mem_targets_ofArray {v : Vec Value} {ds : List Nat} {ss : List Subscript}
    {sel : Selection} (h : ofArray v ds ss = .ok sel) {t : Nat} (ht : t ∈ sel.targets) :
    t < volume ds := by
  obtain ⟨-, perDim, -, hwithin, rfl⟩ := ofArray_eq_ok h
  exact lt_of_mem_offsets hwithin (mem_targets.1 ht)

end Selection

end LazyVectors
