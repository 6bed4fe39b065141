import LazyVectors.Proofs.NumberNotations
import LazyVectors.Proofs.WideningCasts
set_option autoImplicit false

namespace LazyVectors

open Decimal (digits digitChar takeDigits placeValue)

namespace Numeral

variable {a : Numeral}

theorem mem_text {c : Char} (hc : c ∈ a.text) :
    c ∈ ['.', 'e', '-', '+'] ∨ ∃ d < 10, c = digitChar d := by
  have hdigits : ∀ {ds : List Nat}, (∀ d ∈ ds, d < 10) → c ∈ Decimal.text ds →
      ∃ d < 10, c = digitChar d := by
    intro ds hds hmem
    obtain ⟨d, hd, rfl⟩ := List.mem_map.1 hmem
    exact ⟨d, hds d hd, rfl⟩
  rcases List.mem_append.1 hc with hc | hc
  · rcases List.mem_append.1 hc with hc | hc
    · exact .inr (hdigits (Decimal.digits_lt _) hc)
    · unfold partText at hc
      split at hc
      · cases hc
      · rcases List.mem_cons.1 hc with rfl | hc
        · exact .inl (by decide)
        · exact .inr (hdigits a.part_lt hc)
  · cases he : a.exponent with
    | none =>
      rw [he] at hc
      cases hc
    | some e =>
      rw [he] at hc
      rcases List.mem_cons.1 hc with rfl | hc
      · exact .inl (by decide)
      rcases List.mem_cons.1 hc with rfl | hc
      · split <;> exact .inl (by decide)
      · exact .inr (hdigits (exponentDigits_lt e) hc)

theorem head?_text (a : Numeral) : ∃ d < 10, a.text.head? = some (digitChar d) := by
  obtain ⟨d, ds, hdigits⟩ := List.exists_cons_of_ne_nil (Decimal.digits_ne_nil a.whole)
  refine ⟨d, Decimal.digits_lt a.whole d (by rw [hdigits]; exact List.mem_cons_self), ?_⟩
  rw [text, hdigits]
  rfl

end Numeral

namespace Double

open Numeral (suffixText exponentDigits exponentText partText)

theorem takeDigits_suffixText (e : Option Int) :
    takeDigits (suffixText e) = ([], suffixText e) := by
  cases e <;> rfl

theorem readExponent?_suffixText (e : Option Int) :
    readExponent? (suffixText e) = some (e.getD 0) := by
  cases e with
  | none => rfl
  | some e =>
    have hsign : takeSign (exponentText e) =
        (decide (e < 0), Decimal.text (exponentDigits e) ++ []) := by
      rw [List.append_nil, exponentText]
      by_cases he : e < 0 <;> simp [he, takeSign]
    have hne : (exponentDigits e).isEmpty = false := by simp [exponentDigits, Decimal.digits_ne_nil]
    have htake := Decimal.takeDigits_text_append (Numeral.exponentDigits_lt e)
      (show takeDigits [] = ([], []) from rfl)
    rw [suffixText, readExponent?, if_pos (.inl rfl), hsign]
    dsimp only
    rw [htake]
    dsimp only
    rw [hne, Numeral.value_exponentDigits]
    by_cases he : e < 0
    · simp [he, abs_of_neg he]
    · simp [he, abs_of_nonneg (Int.not_lt.1 he)]

theorem readDecimal?_numeral (negative : Bool) (a : Numeral) : readDecimal? negative a.text =
    some (ofDecimal negative (Decimal.value (digits a.whole ++ a.part))
      (a.exponent.getD 0 - a.part.length)) := by
  have hsuffix := takeDigits_suffixText a.exponent
  have hne := Decimal.digits_ne_nil a.whole
  have hlt := Decimal.digits_lt a.whole
  rw [Numeral.text, List.append_assoc, partText]
  by_cases hpart : a.part = []
  · have hpoint : ∀ rest, suffixText a.exponent ≠ '.' :: rest := by
      intro rest
      cases a.exponent <;> simp [suffixText]
    rw [if_pos hpart, List.nil_append, readDecimal?_whole negative hne
      (Decimal.takeDigits_text_append hlt hsuffix) hpoint, readExponent?_suffixText, hpart,
      List.append_nil, List.length_nil, Nat.cast_zero, sub_zero]
    rfl
  · rw [if_neg hpart, List.cons_append,
      readDecimal?_point negative hne (Decimal.takeDigits_text_append hlt rfl)
        (Decimal.takeDigits_text_append a.part_lt hsuffix), readExponent?_suffixText]
    rfl

/-- A numeral of either notation, with a minus or without a sign, is read as the number next to what
it denotes. -/
theorem read?_numeral (negative : Bool) (a : Numeral) {s : String}
    (hs : s.toList = (if negative then ['-'] else []) ++ a.text) :
    read? s = some (ofDecimal negative (Decimal.value (digits a.whole ++ a.part))
      (a.exponent.getD 0 - a.part.length)) := by
  obtain ⟨d, hd, hhead⟩ := a.head?_text
  have hblank : ∀ c ∈ a.text, isBlank c = false := by
    intro c hc
    rcases Numeral.mem_text hc with hc | ⟨d, hd, rfl⟩
    · simp only [List.mem_cons, List.not_mem_nil, or_false] at hc
      rcases hc with rfl | rfl | rfl | rfl <;> decide
    · exact Decimal.isBlank_digitChar hd
  have hletter : ∀ c, c ∉ ['.', 'e', '-', '+'] → Decimal.digit? c = none → c ∉ a.text := by
    intro c hc hdigit hmem
    rcases Numeral.mem_text hmem with hmem | ⟨d, hd, heq⟩
    · exact hc hmem
    · exact Decimal.digitChar_ne hd hdigit heq.symm
  have hx : 'x' ∉ a.text := hletter 'x' (by decide) (by decide)
  have hX : 'X' ∉ a.text := hletter 'X' (by decide) (by decide)
  rw [read?_of_body negative hd hhead hblank hx hX hs, readDecimal?_numeral]
  rfl

end Double

namespace Numeral

variable {a : Numeral} {n : Nat}

theorem value_mod_ten {ds : List Nat} {d : Nat} (hd : d < 10) (hlast : ds.getLast? = some d) :
    Decimal.value ds % 10 = d := by
  obtain ⟨es, rfl⟩ := List.getLast?_eq_some_iff.1 hlast
  rw [Decimal.value_append_singleton, Nat.mul_add_mod, Nat.mod_eq_of_lt hd]

theorem value_mod_ten_ne (h : a.exponent.getD 0 - a.part.length < 0) :
    Decimal.value (digits a.whole ++ a.part) % 10 ≠ 0 := by
  cases hlast : a.part.getLast? with
  | none =>
    have hnil : a.part = [] := List.getLast?_eq_none_iff.1 hlast
    rw [hnil, List.append_nil, Decimal.value_digits]
    rw [hnil, List.length_nil] at h
    have hsome : a.exponent.isSome := by
      cases he : a.exponent with
      | none =>
        rw [he] at h
        exact absurd h (by decide)
      | some e => rfl
    have hlead := a.lead hsome
    omega
  | some d =>
    have hd : d < 10 := a.part_lt d (List.mem_of_getLast? hlast)
    have hlast' : (digits a.whole ++ a.part).getLast? = some d := by
      rw [List.getLast?_append, hlast]
      rfl
    rw [value_mod_ten hd hlast']
    rintro rfl
    exact a.part_last hlast

theorem exists_scale (h : a.value = n) : ∃ k : Nat,
    a.exponent.getD 0 - a.part.length = k ∧
      Decimal.value (digits a.whole ++ a.part) * placeValue k = n := by
  rw [value_eq] at h
  rcases lt_or_ge (a.exponent.getD 0 - a.part.length) 0 with hneg | hnonneg
  · exfalso
    obtain ⟨k, hk⟩ : ∃ k : Nat, a.exponent.getD 0 - a.part.length = -((k + 1 : Nat) : Int) :=
      ⟨(a.exponent.getD 0 - a.part.length).natAbs - 1, by omega⟩
    refine value_mod_ten_ne hneg ?_
    rw [hk, zpow_neg, zpow_natCast, ← div_eq_mul_inv, div_eq_iff (by positivity), pow_succ,
      ← mul_assoc] at h
    have hwhole : Decimal.value (digits a.whole ++ a.part) = n * 10 ^ k * 10 := by exact_mod_cast h
    rw [hwhole, Nat.mul_mod_left]
  · obtain ⟨k, hk⟩ := Int.eq_ofNat_of_zero_le hnonneg
    refine ⟨k, hk, ?_⟩
    rw [hk, zpow_natCast, ← Decimal.cast_placeValue] at h
    exact_mod_cast h

end Numeral

namespace Double

open Scientific (fifteen IsFifteen Nearest)

variable {x : Double} {n : Int}

/-- A product with a power of ten that is not too large is computed. -/
theorem ofDecimal_scaled (negative : Bool) {m k n b : Nat} (h : m * placeValue k = n) (hpos : 0 < n)
    (hlt : n < placeValue b) (hb : b ≤ 400) : ofDecimal negative m k = ofRatio negative n 1 := by
  have hm : 0 < m := Nat.pos_of_ne_zero fun hzero => by
    rw [hzero, Nat.zero_mul] at h
    omega
  have htop : (digits m).length - 1 + k < b := by
    have hle : placeValue ((digits m).length - 1 + k) ≤ n := by
      rw [← h]
      exact (Nat.pow_add 10 _ k).trans_le (Nat.mul_le_mul_right _ (Decimal.placeValue_le m hm))
    exact (Nat.pow_lt_pow_iff_right (by decide : 1 < 10)).1 (hle.trans_lt hlt)
  have hsmall : ¬(400 : Int) < (digits m).length + k := by omega
  have hlarge : ¬(m = 0 ∨ ((digits m).length : Int) + k < -400) := by omega
  have hdown : (-(k : Int)).toNat = 0 := by omega
  rw [ofDecimal, if_neg hlarge, if_neg hsmall, Int.toNat_natCast, hdown, h]
  rfl

theorem exists_fifteen {n : Nat} (hpos : 0 < n) (hn : n < 10 ^ 15) :
    ∃ m e, IsFifteen m ∧ fifteen m e = n := by
  have hlength := Decimal.length_digits_le (by decide : 0 < 15) hn
  obtain ⟨l, hl, hlow, hhigh⟩ := Decimal.digits_bounds hpos
  rw [hl] at hlength
  have hsplit : 10 ^ (14 - l) * 10 ^ l = 10 ^ 14 := by
    rw [← Nat.pow_add]
    congr 1
    omega
  refine ⟨n * 10 ^ (14 - l), l, ⟨?_, ?_⟩, ?_⟩
  · calc 10 ^ 14 = placeValue l * 10 ^ (14 - l) := by rw [← hsplit, Nat.mul_comm]; rfl
      _ ≤ n * 10 ^ (14 - l) := Nat.mul_le_mul_right _ hlow
  · calc n * 10 ^ (14 - l) < placeValue (l + 1) * 10 ^ (14 - l) :=
        Nat.mul_lt_mul_of_pos_right hhigh (Nat.pow_pos (by decide))
      _ = 10 ^ (l + 1 + (14 - l)) := (Nat.pow_add 10 _ _).symm
      _ = 10 ^ 15 := by congr 1; omega
  · have hexp : (l : Int) - 14 = -((14 - l : Nat) : Int) := by omega
    rw [fifteen, hexp, zpow_neg, zpow_natCast, Nat.cast_mul, Nat.cast_pow, Nat.cast_ofNat,
      mul_inv_cancel_right₀ (by positivity)]

theorem size_eq_natAbs (h : x.toRat = n) : x.size = n.natAbs := by
  have hnonneg : 0 ≤ x.size := mul_nonneg (Nat.cast_nonneg _) (zpow_nonneg (by norm_num) _)
  have habs : |x.toRat| = x.size := by
    unfold toRat
    split
    · rw [abs_neg, abs_of_nonneg hnonneg]
    · exact abs_of_nonneg hnonneg
  rw [← habs, h, ← Int.cast_abs, Nat.cast_natAbs]

theorem read?_text?_whole (hnan : x.isNaN = false) (hinfinite : x.isInfinite = false)
    (hx : x.toRat = n) (hn : n.natAbs < 10 ^ 15) :
    ∃ s, x.text? = some s ∧ read? s = some (ofInt n) := by
  have hsize := size_eq_natAbs hx
  -- zero has a text of its own; any other number goes by its fifteen digits
  cases hzero : x.isZero with
  | true =>
    have hn : n = 0 := by
      rw [size_of_isZero hzero] at hsize
      exact Int.natAbs_eq_zero.1 (Nat.cast_eq_zero.1 hsize.symm)
    refine ⟨"0", ?_, ?_⟩
    · rw [text?, isNA, hnan, hinfinite, hzero]
      rfl
    · have hread := read?_toString (i := 0) (by rw [digits]; decide)
      rw [hn, ← hread]
      rfl
  | false =>
    have hpos : 0 < n.natAbs := by
      have := size_pos hzero
      rw [hsize] at this
      exact_mod_cast this
    obtain ⟨m, e, hm, hfifteen⟩ := exists_fifteen hpos hn
    have hnearest : Nearest x.size m e := by
      rw [hsize, ← hfifteen]
      exact Scientific.nearest_self hm e
    obtain ⟨a, ha, htext⟩ := exists_numeral hnan hinfinite hzero hnearest
    obtain ⟨k, hk, hvalue⟩ := Numeral.exists_scale (ha.trans hfifteen)
    have hsign : x.isNegative = decide (n < 0) := by
      rw [Bool.eq_iff_iff, ← toRat_neg_iff hzero, hx, decide_eq_true_iff]
      exact Int.cast_lt_zero
    have hlist := String.toList_ofList (l := (if x.isNegative then ['-'] else []) ++ a.text)
    refine ⟨_, htext, ?_⟩
    rw [read?_numeral _ a hlist, hk, hsign, ofDecimal_scaled _ hvalue hpos hn (by decide)]
    rfl

end Double

theorem textToInteger_text? (i : Int32) : textToInteger (Double.ofInteger i).text? = .kept i := by
  have hlow := i.minValue_le_toInt
  have hhigh := i.toInt_lt
  have hmin : Int32.minValue.toInt = -2147483648 := rfl
  rw [Double.ofInteger]
  split
  · rename_i hi
    have htext : Double.na.text? = none := by
      rw [Double.text?, Double.isNA_na]
      rfl
    rw [htext, eq_hole_of_isNA hi]
    rfl
  · obtain ⟨hnan, hinfinite, -⟩ := Double.whole_toInt i
    obtain ⟨s, htext, hread⟩ := Double.read?_text?_whole hnan hinfinite
      (Double.toRat_ofInt (by omega)) (by omega)
    rw [htext, textToInteger, hread]
    exact Double.toInteger_ofInt i

theorem Vec.cast_of_data {v : Vec Value} {j k : Kind} {d : Data Value} (hv : v.kind = j)
    (hk : j ≠ k) (hd : v.data.cast k = .ok d) : v.cast k = .ok (v.withData d) := by
  rw [Vec.cast, if_neg (hv.trans_ne hk), hd]
  rfl

theorem Vec.cast_over_text {v : Vec Value} (hv : v.kind = .integer) :
    (v.cast .double >>= fun v => v.cast .character >>= fun v => v.cast .integer) =
      .ok v.recomputeComplete := by
  obtain ⟨d, attributes, complete⟩ := v
  cases d with
  | integer xs =>
    have hdouble : (Data.integer xs : Data Value).cast .double =
        .ok (.double (xs.map Double.ofInteger)) := (Data.Reals.ofInteger xs).cast_double
    have hback : (Data.character ((xs.map Double.ofInteger).map Double.text?) : Data Value).cast
        .integer = .ok (.integer xs) := by
      have helements : ((xs.map Double.ofInteger).map Double.text?).map textToInteger =
          xs.map fun i => .kept (id i) := by
        rw [List.map_map, List.map_map]
        exact List.map_congr_left fun i _ => textToInteger_text? i
      have hgather := Data.gather_kept Data.integer .character .integer id xs
      rw [← helements, List.map_id] at hgather
      exact hgather
    rw [Vec.cast_of_data hv (by decide) hdouble, Noted.bind_eq, Noted.ok_bind,
      Vec.cast_of_data (j := .double) rfl (by decide) rfl, Noted.bind_eq, Noted.ok_bind,
      Vec.cast_of_data (j := .character) rfl (by decide) hback]
    rfl
  | _ => cases hv

/-- A whole number of up to fifteen digits is read from its text again, in whichever notation it was
written, and so integers, missing ones among them, come back from the text of floating-point numbers
without a warning. -/
theorem whole_numbers_survive_text :
    (∀ n : Int, n.natAbs < 10 ^ 15 → (Double.ofInt n).toRat = n ∧
      ∃ s, (Double.ofInt n).text? = some s ∧ Double.read? s = some (Double.ofInt n)) ∧
    ∀ v : Vec Value, v.kind = .integer →
      (v.cast .double >>= fun v => v.cast .character >>= fun v => v.cast .integer) =
        .ok v.recomputeComplete := by
  refine ⟨fun n hn => ?_, fun v hv => Vec.cast_over_text hv⟩
  have hsmall : n.natAbs < 2 ^ 53 := hn.trans (by decide)
  obtain ⟨hnan, hinfinite, -⟩ := Double.whole_ofInt hsmall
  have hvalue := Double.toRat_ofInt hsmall
  exact ⟨hvalue, Double.read?_text?_whole hnan hinfinite hvalue hn⟩

theorem whole_numbers_survive_text_hundred_thousand :
    (-100000 : Int).natAbs < 10 ^ 15 ∧
    (∃ s, (Double.ofInt (-100000)).text? = some s ∧
      Double.read? s = some (Double.ofInt (-100000))) ∧
    (Vec.ofData wholeNumbers).kind = .integer ∧
    ((Vec.ofData wholeNumbers).cast .double >>= fun v =>
      v.cast .character >>= fun v => v.cast .integer) = .ok (Vec.ofData wholeNumbers) :=
  ⟨by decide, (whole_numbers_survive_text.1 _ (by decide)).2, rfl,
    whole_numbers_survive_text.2 _ rfl⟩

end LazyVectors
