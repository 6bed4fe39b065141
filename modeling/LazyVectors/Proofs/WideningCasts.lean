import LazyVectors.Proofs.Elements
import LazyVectors.Proofs.IntegerCasts
import LazyVectors.Proofs.NumberTexts
import LazyVectors.Value.Equality
/-!
Casts to kinds that hold more. What is cast to a list, to a kind of numbers that comes later,
or, if it is logical or whole, to text, is what it was after the cast back, and there is no
warning. It does not matter by which kinds of numbers it went.
-/

set_option autoImplicit false

namespace LazyVectors

theorem eq_hole_of_isNA {i : Int32} (h : Element.isNA i = true) : i = Element.hole := beq_iff_eq.1 h

namespace Double

theorem toInteger_ofInteger (i : Int32) : (ofInteger i).toInteger = .kept i := by
  rw [ofInteger]
  split
  · rename_i hi
    rw [eq_hole_of_isNA hi]
    decide
  · exact toInteger_ofInt i

theorem isNA_eq_false {x : Double} (h : x.isNaN = false) : x.isNA = false := by
  rw [isNA, h, Bool.false_and]

end Double

namespace Cplx

variable {x : Double}

theorem isNA_ofDouble (h : x.isNA = false) :
    ofDouble x = ⟨x, .zero⟩ ∧ Element.isNA (ofDouble x) = false := by
  have hpair : ofDouble x = ⟨x, .zero⟩ := by
    rw [ofDouble, h]
    rfl
  refine ⟨hpair, ?_⟩
  rw [hpair]
  change (x.isNA || Double.zero.isNA) = false
  rw [h]
  decide

theorem toDouble_ofDouble (h : x.isNA = false) : (ofDouble x).toDouble = x := by
  obtain ⟨hpair, hna⟩ := isNA_ofDouble h
  rw [toDouble, hna, hpair]
  rfl

/-- Of a missing number only that it is missing is kept. -/
theorem identical_toDouble_ofDouble (x : Double) : x.identical (ofDouble x).toDouble = true := by
  cases hx : x.isNA with
  | false =>
    rw [toDouble_ofDouble hx]
    exact x.identical_refl
  | true =>
    have hnan : x.isNaN = true := by
      rw [Double.isNA] at hx
      exact (Bool.and_eq_true_iff.1 hx).1
    have hback : (ofDouble x).toDouble = Double.na := by
      rw [ofDouble, if_pos hx]
      decide
    have hna : Double.na.isNaN = true := by decide
    rw [hback, Double.identical, hnan, hx, hna, Double.isNA_na]
    rfl

theorem toInteger_ofInteger (i : Int32) :
    (if Element.isNA (ofDouble (.ofInteger i)) then Converted.hole
      else (ofDouble (.ofInteger i)).re.toInteger) = .kept i := by
  rw [Double.ofInteger]
  split
  · rename_i hi
    rw [eq_hole_of_isNA hi]
    decide
  · obtain ⟨hpair, hna⟩ := isNA_ofDouble (Double.isNA_eq_false (Double.whole_toInt i).1)
    rw [hna, hpair]
    exact Double.toInteger_ofInt i

end Cplx

theorem textToInteger_integerText? (i : Int32) : textToInteger (integerText? i) = .kept i := by
  have hlow := i.minValue_le_toInt
  have hhigh := i.toInt_lt
  have hmin : Int32.minValue.toInt = -2147483648 := rfl
  have hten : Decimal.placeValue 10 = 10000000000 := rfl
  have hlen : (Decimal.digits i.toInt.natAbs).length ≤ 10 :=
    Decimal.length_digits_le (by decide) (by omega)
  rw [integerText?]
  split
  · rename_i hi
    rw [eq_hole_of_isNA hi]
    rfl
  · rw [textToInteger, Double.read?_toString (by omega)]
    exact Double.toInteger_ofInt i

def Kind.IsNumeric (k : Kind) : Prop := k = .integer ∨ k = .double ∨ k = .complex

namespace Data

variable {d back : Data Value} {k m : Kind}

/-- The cast to a kind gives as many elements of this kind, and the cast of these back gives others
of the first one. There is no warning. -/
def ComesBackAs (d : Data Value) (k : Kind) (back : Data Value) : Prop :=
  ∃ e, d.cast k = .ok e ∧ e.kind = k ∧ e.length = d.length ∧ e.cast d.kind = .ok back

theorem ComesBackAs.of_casts {e : Data Value} (hup : d.cast k = .ok e)
    (hdown : e.cast d.kind = .ok back) : d.ComesBackAs k back := by
  have hresult : (d.cast k).result = .ok e := by
    rw [hup]
    rfl
  obtain ⟨hkind, hlen⟩ := kind_length_of_cast hresult
  exact ⟨e, hup, hkind, hlen, hdown⟩

theorem comesBackAs_map {α β : Type} {make : List α → Data Value} {make' : List β → Data Value}
    {up : α → β} {down : β → Converted α} {f : α → α} {xs : List α}
    (hup : (make xs).cast k = .ok (make' (xs.map up)))
    (hdown : ∀ ys, (make' ys).cast (make xs).kind =
      gather make k (make xs).kind (ys.map down))
    (hback : ∀ x, down (up x) = .kept (f x)) :
    (make xs).ComesBackAs k (make (xs.map f)) := by
  have helements : (xs.map up).map down = xs.map fun x => .kept (f x) := by
    rw [List.map_map]
    exact List.map_congr_left fun x _ => hback x
  exact .of_casts hup (by rw [hdown, helements, gather_kept])

theorem comesBackAs_self {α β : Type} {make : List α → Data Value} {make' : List β → Data Value}
    {up : α → β} {down : β → Converted α} {xs : List α}
    (hup : (make xs).cast k = .ok (make' (xs.map up)))
    (hdown : ∀ ys, (make' ys).cast (make xs).kind =
      gather make k (make xs).kind (ys.map down))
    (hback : ∀ x, down (up x) = .kept x) : (make xs).ComesBackAs k (make xs) := by
  have h := comesBackAs_map (f := id) hup hdown hback
  rwa [List.map_id] at h

def integerOfLogical : Option Bool → Int32
  | none => Element.hole
  | some b => if b then 1 else 0

inductive Reals : Data Value → Prop where
  | ofLogical (xs : List (Option Bool)) : Reals (logical xs)
  | ofInteger (xs : List Int32) : Reals (integer xs)
  | ofDouble (xs : List Double) : Reals (double xs)

def doubles : Data Value → List Double
  | logical xs => xs.map .ofLogical
  | integer xs => xs.map .ofInteger
  | double xs => xs
  | _ => []

theorem cast_integer_of_logical (xs : List (Option Bool)) :
    (logical xs).cast .integer = .ok (integer (xs.map integerOfLogical)) :=
  gather_kept integer .logical .integer integerOfLogical xs

theorem Reals.of_rank (hd : d.kind.rank ≤ Kind.double.rank) : d.Reals := by
  cases d with
  | logical xs => exact .ofLogical xs
  | integer xs => exact .ofInteger xs
  | double xs => exact .ofDouble xs
  | _ => simp [kind, Kind.rank] at hd

theorem Reals.toDouble_eq (hd : d.Reals) : d.toDouble = d.doubles.map .kept := by
  cases hd with
  | ofDouble xs => rfl
  | _ => simp [toDouble, doubles]

theorem Reals.cast_double (hd : d.Reals) : d.cast .double = .ok (double d.doubles) := by
  have hgather : gather double d.kind .double d.toDouble = .ok (double d.doubles) := by
    have hkept := gather_kept double d.kind .double id d.doubles
    rw [List.map_id] at hkept
    rw [hd.toDouble_eq]
    exact hkept
  cases hd with
  | ofDouble xs => rfl
  | _ => exact hgather

theorem Reals.cast_complex (hd : d.Reals) :
    d.cast .complex = .ok (complex (d.doubles.map .ofDouble)) := by
  have hgather : gather complex d.kind .complex
      (d.toDouble.map fun x => ⟨.ofDouble x.value, x.lost⟩) =
        .ok (complex (d.doubles.map .ofDouble)) := by
    rw [hd.toDouble_eq, List.map_map]
    exact gather_kept complex d.kind .complex Cplx.ofDouble d.doubles
  cases hd <;> exact hgather

/-- It does not matter whether logical elements become integers first. -/
theorem doubles_integerOfLogical (xs : List (Option Bool)) :
    (integer (xs.map integerOfLogical)).doubles = (logical xs).doubles := by
  rw [doubles, doubles, List.map_map]
  refine List.map_congr_left fun b _ => ?_
  rcases b with _ | _ | _ <;> decide

theorem cast_complex_eq_ok (hd : d.kind.rank ≤ Kind.complex.rank) :
    ∃ cs, d.cast .complex = .ok (complex cs) := by
  cases d with
  | logical xs => exact ⟨_, (Reals.ofLogical xs).cast_complex⟩
  | integer xs => exact ⟨_, (Reals.ofInteger xs).cast_complex⟩
  | double xs => exact ⟨_, (Reals.ofDouble xs).cast_complex⟩
  | complex cs => exact ⟨cs, cast_self _⟩
  | _ => simp [kind, Kind.rank] at hd

theorem cast_through (hm : m.IsNumeric) (hk : k.IsNumeric) (hdm : d.kind.rank ≤ m.rank)
    (hmk : m.rank ≤ k.rank) : (d.cast m >>= fun e => e.cast k) = d.cast k := by
  have hafter : ∀ {e : Data Value}, d.cast m = .ok e →
      (d.cast m >>= fun e => e.cast k) = e.cast k := by
    intro e he
    rw [he]
    rfl
  -- only logical elements can take the way over integers
  rcases hm with rfl | rfl | rfl
  · cases d with
    | logical xs =>
      rw [hafter (cast_integer_of_logical xs)]
      rcases hk with rfl | rfl | rfl
      · rw [cast_integer_of_logical]
        exact cast_self _
      · rw [(Reals.ofInteger _).cast_double, (Reals.ofLogical xs).cast_double,
          doubles_integerOfLogical]
      · rw [(Reals.ofInteger _).cast_complex, (Reals.ofLogical xs).cast_complex,
          doubles_integerOfLogical]
    | integer xs => exact hafter (cast_self _)
    | _ => simp [kind, Kind.rank] at hdm
  · have hd := Reals.of_rank hdm
    rw [hafter hd.cast_double]
    rcases hk with rfl | rfl | rfl
    · simp [Kind.rank] at hmk
    · rw [hd.cast_double]
      exact cast_self _
    · rw [(Reals.ofDouble _).cast_complex, hd.cast_complex]
      rfl
  · obtain ⟨cs, hcs⟩ := cast_complex_eq_ok hdm
    rcases hk with rfl | rfl | rfl
    · simp [Kind.rank] at hmk
    · simp [Kind.rank] at hmk
    · rw [hafter hcs, hcs]
      exact cast_self _

theorem logical_back (hk : k.IsNumeric) (xs : List (Option Bool)) :
    (logical xs).ComesBackAs k (logical xs) := by
  have hreals := Reals.ofLogical xs
  rcases hk with rfl | rfl | rfl
  · refine comesBackAs_self (cast_integer_of_logical xs) (fun _ => rfl) fun b => ?_
    rcases b with _ | _ | _ <;> decide
  · refine comesBackAs_self hreals.cast_double (fun _ => rfl) fun b => ?_
    rcases b with _ | _ | _ <;> decide
  · have hup := hreals.cast_complex
    rw [doubles, List.map_map] at hup
    refine comesBackAs_self hup (fun _ => rfl) fun b => ?_
    rcases b with _ | _ | _ <;> decide

theorem integer_back (hk : k = .double ∨ k = .complex) (xs : List Int32) :
    (integer xs).ComesBackAs k (integer xs) := by
  have hreals := Reals.ofInteger xs
  rcases hk with rfl | rfl
  · exact comesBackAs_self hreals.cast_double (fun _ => rfl) Double.toInteger_ofInteger
  · have hup := hreals.cast_complex
    rw [doubles, List.map_map] at hup
    exact comesBackAs_self hup (fun _ => rfl) Cplx.toInteger_ofInteger

theorem double_back (xs : List Double) : (double xs).ComesBackAs .complex
    (double (xs.map fun x => (Cplx.ofDouble x).toDouble)) :=
  comesBackAs_map (Reals.ofDouble xs).cast_complex (fun _ => rfl) fun _ => rfl

theorem pairwiseAll_map {α : Type} {r : α → α → Bool} {f : α → α} (h : ∀ x, r x (f x) = true)
    (xs : List α) : pairwiseAll r xs (xs.map f) = true := by
  induction xs with
  | nil => rfl
  | cons x xs ih => rw [List.map_cons, pairwiseAll, h, ih, Bool.and_self]

theorem cast_numbers_back (hk : k.IsNumeric) (hdk : d.kind.rank < k.rank) :
    ∃ back, d.ComesBackAs k back ∧ d.same back = true := by
  cases d with
  | logical xs => exact ⟨_, logical_back hk xs, by simp [same]⟩
  | integer xs =>
    rcases hk with rfl | hk
    · simp [kind, Kind.rank] at hdk
    · exact ⟨_, integer_back hk xs, by simp [same]⟩
  | double xs =>
    rcases hk with rfl | rfl | rfl
    · simp [kind, Kind.rank] at hdk
    · simp [kind, Kind.rank] at hdk
    · exact ⟨_, double_back xs, pairwiseAll_map Cplx.identical_toDouble_ofDouble xs⟩
  | _ => rcases hk with rfl | rfl | rfl <;> simp [kind, Kind.rank] at hdk

theorem cast_text_back (hd : d.kind = .logical ∨ d.kind = .integer) :
    d.ComesBackAs .character d := by
  cases d with
  | logical xs =>
    have hup : (logical xs).cast .character =
        .ok (character (xs.map fun b => b.map logicalText)) := rfl
    refine comesBackAs_self hup (fun _ => rfl) fun b => ?_
    rcases b with _ | _ | _ <;> rfl
  | integer xs =>
    have hup : (integer xs).cast .character = .ok (character (xs.map integerText?)) := rfl
    exact comesBackAs_self hup (fun _ => rfl) textToInteger_integerText?
  | _ => simp [kind] at hd

theorem append?_select (d : Data Value) (is js : List (Option Nat)) :
    (d.select is).append? (d.select js) = some (d.select (is ++ js)) := by
  cases d <;> simp [select, mapEach, append?]

theorem castItems_elements (hd : d.kind.isAtomic) (is js : List (Option Nat)) :
    castItems d.kind (d.select is) (js.map fun i => .vector (Vec.ofData (d.select [i]))) =
      .ok (d.select (is ++ js)) := by
  induction js generalizing is with
  | nil => rw [List.append_nil]; rfl
  | cons i js ih =>
    have hitem : castItem d.kind (.vector (Vec.ofData (d.select [i]))) = .ok (d.select [i]) := by
      have hone : (Vec.ofData (d.select [i])).length = 1 := length_select d [i]
      have hkind : (Vec.ofData (d.select [i])).kind = d.kind := kind_select d [i]
      rw [castItem, if_pos ⟨hone, by rw [hkind]; exact hd⟩]
      unfold castAtomic
      exact if_pos hkind
    rw [List.map_cons, castItems, hitem, Noted.bind_eq, Noted.ok_bind, append?_select]
    dsimp only
    rw [ih (is ++ [i]), List.append_assoc]
    rfl

theorem cast_list_back (hd : d.kind.isAtomic) : d.ComesBackAs .list d := by
  have hne : d.kind ≠ .list := by
    intro h
    rw [h] at hd
    cases hd
  have hup : d.cast .list = .ok (list (Vec.ofData d).elements) := by
    cases d with
    | list xs => exact absurd rfl hne
    | _ => rfl
  have hholes : holes? d.kind 0 = some (d.select []) := by
    cases d <;> rfl
  refine .of_casts hup ?_
  rw [cast, if_neg hne, hholes]
  dsimp only
  rw [elements_of_atomic d hne]
  -- the items are the elements one by one, so the cast back gathers all of them
  have hitems := castItems_elements hd [] ((List.range d.length).map some)
  rw [List.map_map, List.nil_append, select_range] at hitems
  exact hitems

end Data

/-- Casts to kinds that hold more lose nothing: what is cast to a list, to a later kind of numbers
or, if it is logical or whole, to text comes back, and there is no warning. Another kind of numbers
on the way up makes no difference. -/
theorem widening_casts_lose_nothing {d : Data Value} (hd : d.kind.isAtomic) :
    d.ComesBackAs .list d ∧
    (∀ k : Kind, k.IsNumeric → d.kind.rank < k.rank →
      ∃ back, d.ComesBackAs k back ∧ d.same back = true) ∧
    (∀ m k : Kind, m.IsNumeric → k.IsNumeric → d.kind.rank ≤ m.rank → m.rank ≤ k.rank →
      (d.cast m >>= fun e => e.cast k) = d.cast k) ∧
    (d.kind = .logical ∨ d.kind = .integer → d.ComesBackAs .character d) :=
  ⟨Data.cast_list_back hd, fun _ hk hdk => Data.cast_numbers_back hk hdk,
    fun _ _ hm hk hdm hmk => Data.cast_through hm hk hdm hmk, Data.cast_text_back⟩

def wholeNumbers : Data Value := .integer [12, -7, Element.hole]

theorem widening_casts_lose_nothing_integers :
    wholeNumbers.kind.isAtomic ∧ wholeNumbers.ComesBackAs .list wholeNumbers ∧
    (∃ back, wholeNumbers.ComesBackAs .complex back ∧ wholeNumbers.same back = true) ∧
    (wholeNumbers.cast .double >>= fun e => e.cast .complex) = wholeNumbers.cast .complex ∧
    wholeNumbers.ComesBackAs .character wholeNumbers := by
  have hd : wholeNumbers.kind.isAtomic := by decide
  obtain ⟨hlist, hnumbers, hthrough, htext⟩ := widening_casts_lose_nothing hd
  exact ⟨hd, hlist, hnumbers .complex (.inr (.inr rfl)) (by decide),
    hthrough .double .complex (.inr (.inl rfl)) (.inr (.inr rfl)) (by decide) (by decide),
    htext (.inr rfl)⟩

end LazyVectors
