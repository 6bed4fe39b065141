import LazyVectors.Double.Reading
set_option autoImplicit false

namespace LazyVectors

theorem trimBlanks_of_not_isBlank {cs : List Char} (h : ∀ c ∈ cs, isBlank c = false) :
    trimBlanks cs = cs := by
  have hdrop : ∀ ds : List Char, (∀ c ∈ ds, isBlank c = false) → ds.dropWhile isBlank = ds := by
    intro ds hds
    cases ds with
    | nil => rfl
    | cons c ds => rw [List.dropWhile_cons_of_neg (by simp [hds c List.mem_cons_self])]
  rw [trimBlanks, hdrop cs h, hdrop cs.reverse fun c hc => h c (List.mem_reverse.1 hc),
    List.reverse_reverse]

namespace Decimal

variable {ds : List Nat}

theorem digit?_digitChar {d : Nat} (h : d < 10) : digit? (digitChar d) = some d := by
  have hall : ∀ d, d < 10 → digit? (digitChar d) = some d := by decide
  exact hall d h

theorem isBlank_digitChar {d : Nat} (h : d < 10) : isBlank (digitChar d) = false := by
  have hall : ∀ d, d < 10 → isBlank (digitChar d) = false := by decide
  exact hall d h

theorem digitChar_ne {c : Char} {d : Nat} (hd : d < 10) (hc : digit? c = none) :
    digitChar d ≠ c := by
  rintro rfl
  rw [digit?_digitChar hd] at hc
  cases hc

theorem notMem_text {c : Char} (hds : ∀ d ∈ ds, d < 10) (hc : digit? c = none) : c ∉ text ds := by
  intro hmem
  obtain ⟨d, hd, heq⟩ := List.mem_map.1 hmem
  exact digitChar_ne (hds d hd) hc heq

theorem takeDigits_text (hds : ∀ d ∈ ds, d < 10) (rest : List Char) :
    takeDigits (text ds ++ rest) = (ds ++ (takeDigits rest).1, (takeDigits rest).2) := by
  induction ds with
  | nil => rfl
  | cons d ds ih =>
    have hrest := ih fun e he => hds e (List.mem_cons_of_mem _ he)
    have hdigit := digit?_digitChar (hds d List.mem_cons_self)
    rw [text, List.map_cons, List.cons_append, takeDigits, hdigit]
    change (d :: (takeDigits (text ds ++ rest)).1, (takeDigits (text ds ++ rest)).2) = _
    rw [hrest]
    rfl

theorem takeDigits_text_append {rest : List Char} (hds : ∀ d ∈ ds, d < 10)
    (hrest : takeDigits rest = ([], rest)) : takeDigits (text ds ++ rest) = (ds, rest) := by
  rw [takeDigits_text hds, hrest, List.append_nil]

theorem text_append (ds es : List Nat) : text (ds ++ es) = text ds ++ text es := List.map_append

theorem toDigits_eq (n : Nat) : Nat.toDigits 10 n = text (digits n) := by
  have hchar : ∀ d, d < 10 → Nat.digitChar d = digitChar d := by decide
  induction n using Nat.strongRecOn with
  | ind n ih =>
    rw [Nat.toDigits_eq_if (by decide), digits]
    split
    · rename_i hn
      rw [hchar n hn]
      rfl
    · rw [ih (n / 10) (by omega), hchar (n % 10) (by omega), text_append]
      rfl

theorem length_digits_le {n k : Nat} (hk : 0 < k) (h : n < placeValue k) :
    (digits n).length ≤ k := by
  rcases Nat.eq_zero_or_pos n with rfl | hpos
  · rw [digits]
    exact hk
  · refine Nat.le_of_not_lt fun hlong => ?_
    have hle : placeValue k ≤ placeValue ((digits n).length - 1) :=
      Nat.pow_le_pow_right (by decide) (by omega)
    have hn := placeValue_le n hpos
    omega

theorem digits_bounds {n : Nat} (hpos : 0 < n) :
    ∃ l, (digits n).length = l + 1 ∧ placeValue l ≤ n ∧ n < placeValue (l + 1) := by
  have hlow := placeValue_le n hpos
  have hhigh := digits_length n
  cases hlength : (digits n).length with
  | zero => exact absurd (List.length_eq_zero_iff.1 hlength) (digits_ne_nil n)
  | succ l =>
    rw [hlength] at hlow hhigh
    exact ⟨l, rfl, hlow, hhigh⟩

theorem length_digits_of_bounds {n k : Nat} (hlow : placeValue k ≤ n)
    (hhigh : n < placeValue (k + 1)) : (digits n).length = k + 1 := by
  refine Nat.le_antisymm (length_digits_le k.succ_pos hhigh) (Nat.lt_of_not_le fun hle => ?_)
  have hplace : placeValue (digits n).length ≤ placeValue k := Nat.pow_le_pow_right (by decide) hle
  exact Nat.lt_irrefl n (Nat.lt_of_lt_of_le (digits_length n) (Nat.le_trans hplace hlow))

end Decimal

open Decimal in
theorem takeSign_digitChar {d : Nat} (hd : d < 10) (cs : List Char) :
    takeSign (digitChar d :: cs) = (false, digitChar d :: cs) := by
  unfold takeSign
  split
  · rename_i heq
    exact absurd (List.cons.inj heq).1 (digitChar_ne hd (by decide))
  · rename_i heq
    exact absurd (List.cons.inj heq).1 (digitChar_ne hd (by decide))
  · rfl

namespace Double

open Decimal

variable {ds : List Nat}

theorem ofDecimal_whole (negative : Bool) {m : Nat} (hm : (digits m).length ≤ 400) :
    ofDecimal negative m 0 = ofRatio negative m 1 := by
  have hsmall : ¬(400 : Int) < (digits m).length := by omega
  have hlarge : ¬((digits m).length : Int) < -400 := by omega
  simp only [ofDecimal, Int.add_zero, hsmall, hlarge, or_false, if_false]
  split
  · rename_i hzero
    rw [hzero]
  · exact congrArg (ofRatio negative · 1) (Nat.mul_one m)

theorem readDecimal?_whole (negative : Bool) {cs tail : List Char} (hne : ds ≠ [])
    (htake : takeDigits cs = (ds, tail)) (htail : ∀ rest, tail ≠ '.' :: rest) :
    readDecimal? negative cs =
      (readExponent? tail).map fun e => ofDecimal negative (value ds) e := by
  rw [readDecimal?, htake]
  simp [hne]

theorem readDecimal?_point (negative : Bool) {es : List Nat} {cs rest tail : List Char}
    (hne : ds ≠ []) (htake : takeDigits cs = (ds, '.' :: rest))
    (hrest : takeDigits rest = (es, tail)) : readDecimal? negative cs =
      (readExponent? tail).map fun e => ofDecimal negative (value (ds ++ es)) (e - es.length) := by
  rw [readDecimal?, htake]
  simp [hrest, hne]

theorem readDecimal?_text (negative : Bool) (hds : ∀ d ∈ ds, d < 10) (hne : ds ≠ []) :
    readDecimal? negative (text ds) = some (ofDecimal negative (value ds) 0) := by
  have htake := takeDigits_text_append hds (show takeDigits [] = ([], []) from rfl)
  rw [List.append_nil] at htake
  rw [readDecimal?_whole negative hne htake (by simp)]
  rfl

/-- What has no blank and no prefix of another base, and starts with a digit behind its sign, is
read as a decimal numeral or as a name. -/
theorem read?_of_body (negative : Bool) {s : String} {body : List Char} {d : Nat} (hd : d < 10)
    (hhead : body.head? = some (digitChar d)) (hblank : ∀ c ∈ body, isBlank c = false)
    (hx : 'x' ∉ body) (hX : 'X' ∉ body)
    (hs : s.toList = (if negative then ['-'] else []) ++ body) :
    read? s = (readDecimal? negative body <|> readName? negative body) := by
  obtain ⟨cs, rfl⟩ : ∃ cs, body = digitChar d :: cs := List.head?_eq_some_iff.1 hhead
  have hblank : ∀ c ∈ s.toList, isBlank c = false := by
    intro c hc
    rw [hs] at hc
    rcases List.mem_append.1 hc with hc | hc
    · split at hc
      · rw [List.mem_singleton.1 hc]
        decide
      · cases hc
    · exact hblank c hc
  -- a text with a digit behind its sign is not the one for a missing value
  have hletters : s.toList ≠ ['N', 'A'] := by
    rw [hs]
    intro heq
    cases negative with
    | true => cases heq
    | false => exact digitChar_ne hd (by decide) (List.cons.inj heq).1
  have hsign : takeSign s.toList = (negative, digitChar d :: cs) := by
    rw [hs]
    cases negative with
    | true => rfl
    | false => exact takeSign_digitChar hd cs
  rw [read?, trimBlanks_of_not_isBlank hblank, if_neg hletters, hsign]
  dsimp only
  split
  · rename_i heq
    simp [heq] at hx
  · rename_i heq
    simp [heq] at hX
  · rfl

theorem read?_text (negative : Bool) {s : String} (hds : ∀ d ∈ ds, d < 10) (hne : ds ≠ [])
    (hs : s.toList = (if negative then ['-'] else []) ++ text ds) :
    read? s = some (ofDecimal negative (value ds) 0) := by
  obtain ⟨d, es, rfl⟩ := List.exists_cons_of_ne_nil hne
  have hblank : ∀ c ∈ text (d :: es), isBlank c = false := by
    intro c hc
    obtain ⟨e, he, rfl⟩ := List.mem_map.1 hc
    exact isBlank_digitChar (hds e he)
  rw [read?_of_body negative (hds d List.mem_cons_self) rfl hblank
    (notMem_text hds (by decide)) (notMem_text hds (by decide)) hs,
    readDecimal?_text negative hds hne]
  rfl

/-- The numeral of an integer is read as the number next to it. -/
theorem read?_toString {i : Int} (h : (digits i.natAbs).length ≤ 400) :
    read? (toString i) = some (ofInt i) := by
  have hds := digits_lt i.natAbs
  have hlist : (toString i).toList =
      (if decide (i < 0) then ['-'] else []) ++ text (digits i.natAbs) := by
    have hrepr : ∀ n : Nat, n.repr.toList = text (digits n) := by
      intro n
      rw [Nat.repr_eq_ofList_toDigits, String.toList_ofList, toDigits_eq]
    rw [Int.toString_eq_repr, Int.repr_eq_if]
    by_cases hi : 0 ≤ i
    · rw [if_pos hi, hrepr, show i.toNat = i.natAbs by omega]
      simp [hi]
    · rw [if_neg hi, String.toList_append, hrepr, show (-i).toNat = i.natAbs by omega]
      simp [Int.not_le.1 hi]
  rw [read?_text (decide (i < 0)) hds (digits_ne_nil _) hlist, value_digits, ofDecimal_whole _ h]
  rfl

end Double

end LazyVectors
