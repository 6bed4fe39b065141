import LazyVectors.Proofs.Subsets
set_option autoImplicit false

namespace LazyVectors

variable {ω : Type} [Foreign ω]

/-- A result fails exactly if there is a reason to, and then for one of the reasons. -/
def FailsExactly {α : Type} (P : Failure → Prop) : Except Failure α → Prop
  | .ok _ => ∀ e, ¬P e
  | .error e => P e

namespace FailsExactly

variable {α β : Type} {P Q : Failure → Prop} {r : Except Failure α} {f : α → Except Failure β}

theorem bind (hr : FailsExactly P r) (hf : ∀ a, r = .ok a → FailsExactly Q (f a)) :
    FailsExactly (fun e => P e ∨ Q e) (r >>= f) := by
  cases r with
  | error e => exact .inl hr
  | ok a =>
    have hrest := hf a rfl
    change FailsExactly _ (f a)
    cases hb : f a with
    | error e =>
      rw [hb] at hrest
      exact .inr hrest
    | ok b =>
      rw [hb] at hrest
      exact fun e he => he.elim (hr e) (hrest e)

theorem after_ok (hr : ∃ a, r = .ok a) (hf : ∀ a, r = .ok a → FailsExactly P (f a)) :
    FailsExactly P (r >>= f) := by
  obtain ⟨a, rfl⟩ := hr
  exact hf a rfl

theorem before_ok (hr : FailsExactly P r) (hf : ∀ a, r = .ok a → ∃ b, f a = .ok b) :
    FailsExactly P (r >>= f) := by
  cases r with
  | error e => exact hr
  | ok a =>
    obtain ⟨b, hb⟩ := hf a rfl
    change FailsExactly P (f a)
    rw [hb]
    exact hr

theorem error_iff (hr : FailsExactly P r) : (∃ e, r = .error e) ↔ ∃ e, P e := by
  cases r with
  | error e => exact ⟨fun _ => ⟨e, hr⟩, fun _ => ⟨e, rfl⟩⟩
  | ok a =>
    constructor
    · rintro ⟨e, he⟩
      cases he
    · rintro ⟨e, he⟩
      exact absurd he (hr e)

theorem of_error (hr : FailsExactly P r) {e : Failure} (h : r = .error e) : P e := by
  rw [h] at hr
  exact hr

end FailsExactly

/-- What is wrong with a subscript that stands for no position. -/
inductive Subscript.Malformed : Subscript → Failure → Prop
  | kind {y : Value} (hkind : y.kind.isPosition = false) :
    Malformed (.given y) (.index (.invalidSubscript y.kind))
  | signs {p : Subscript} (hmixed : p.Mixed) :
    Malformed p (.index (if none ∈ p.numbers then .missingWithNegative else .mixedSigns))

namespace Value

def aims (x : Value) (p : Subscript) : List Nat := p.aims x.length (x.labels?.getD [])

def needs (x : Value) (p : Subscript) : Nat := Selection.reach x.length (x.aims p)

/-- What is wrong with `w` elements for the places that a subscript reaches. -/
inductive Mismatch (x : Value) (p : Subscript) (w : Nat) : Failure → Prop
  | missing (hmissing : p.HasMissing) (hw : w ≠ 1) : Mismatch x p w (.index .missingTarget)
  | empty (hsome : p.HasMissing ∨ x.aims p ≠ []) (hw : w = 0) :
    Mismatch x p w (.index .emptyReplacement)
  | excess (hsome : x.aims p ≠ []) (hw : (x.aims p).length < w) :
    Mismatch x p w (.index .notMultiple)

/-- What is wrong with a length that a container of a kind has to grow to: it is more than any
vector has, or memory does not grant it. -/
inductive Overflow [Memory] (x : Value) (p : Subscript) (k : Kind) : Failure → Prop
  | tooLong (hgrows : x.length < x.needs p) (hlong : maxLength < x.needs p) :
    Overflow x p k (.index .tooLarge)
  | noRoom (hgrows : x.length < x.needs p) (hlength : x.needs p ≤ maxLength)
    (hfull : Memory.grants k (x.needs p) = false) :
    Overflow x p k (.runtime (.allocation (x.needs p)))

/-- Why a container takes no value through a subscript. -/
def Refuses [Memory] (x : Value) (p : Subscript) (value : Value) (e : Failure) : Prop :=
  p.Malformed e ∨ x.Mismatch p value.length e ∨
    x.Overflow p (x.kind.promote value.asElements.kind) e

end Value

namespace Subscript

theorem not_malformed_of_position {p : Subscript} {e : Failure}
    (hkind : ∀ y, p = .given y → y.kind.isPosition = true) (hmixed : ¬p.Mixed) :
    ¬p.Malformed e := by
  intro h
  cases h with
  | kind hother => simp [hkind _ rfl] at hother
  | signs h => exact hmixed h

theorem position_of_not_isPosition {y : Value} (h : y.kind.isPosition = false) :
    (given y).position = .error (.index (.invalidSubscript y.kind)) := by
  cases y with
  | vector v =>
    obtain ⟨d, as, c⟩ := v
    cases d <;> first | rfl | cases h
  | null => cases h
  | _ => rfl

theorem position_failsExactly (p : Subscript) : FailsExactly p.Malformed p.position := by
  cases p with
  | omitted =>
    refine fun e => not_malformed_of_position (fun y hy => by cases hy) ?_
    rintro ⟨⟨k, hk, -⟩, -⟩
    cases hk
  | given y =>
    cases hkind : y.kind.isPosition with
    | false =>
      rw [position_of_not_isPosition hkind]
      exact .kind hkind
    | true =>
      by_cases hmixed : (given y).Mixed
      · rw [position_of_mixed hmixed]
        exact .signs hmixed
      · obtain ⟨q, hq⟩ := position_of_not_mixed hkind hmixed
        rw [hq]
        refine fun e => not_malformed_of_position (fun z hz => ?_) hmixed
        cases hz
        exact hkind

end Subscript

theorem Selection.indices_isEmpty (s : Selection) :
    s.indices.isEmpty = false ↔ none ∈ s.indices ∨ s.targets ≠ [] := by
  unfold targets
  cases s.indices with
  | nil => simp
  | cons i is =>
    cases i <;> simp

theorem Vec.assignable_failsExactly {x : Value} {p : Subscript} {sel : Selection}
    (hmissing : none ∈ sel.indices ↔ p.HasMissing) (htargets : sel.targets = x.aims p) (w : Nat) :
    FailsExactly (x.Mismatch p w) (assignable sel w) := by
  have hna : sel.hasNA = true ↔ p.HasMissing := by
    rw [← hmissing]
    exact List.contains_iff_mem
  have hsome : sel.indices.isEmpty = false ↔ p.HasMissing ∨ x.aims p ≠ [] := by
    rw [Selection.indices_isEmpty, hmissing, htargets]
  unfold assignable
  split
  · rename_i h
    exact .missing (hna.1 h.1) h.2
  rename_i hpresent
  split
  · rename_i h
    exact .empty (hsome.1 (by simpa using h.2)) h.1
  rename_i hnonempty
  split
  · rename_i h
    rw [htargets] at h
    exact .excess (by simpa using h.2) h.1
  rename_i hfits
  rw [htargets] at hfits
  intro e he
  cases he with
  | missing h hw => exact hpresent ⟨hna.2 h, hw⟩
  | empty h hw => exact hnonempty ⟨hw, by simpa using hsome.2 h⟩
  | excess h hw => exact hfits ⟨hw, by simpa using h⟩

namespace Data

theorem cast_upward {d : Data Value} {k : Kind} (hk : k.isVector = true)
    (hle : d.kind.rank ≤ k.rank) : ∃ e, (d.cast k).result = .ok e := by
  cases d with
  | list xs =>
    have hrank : Kind.list.rank ≤ k.rank := hle
    have hlist : k = .list := by
      cases k <;> first | rfl | exact absurd hrank (by decide) | cases hk
    exact ⟨.list xs, by rw [cast, if_pos hlist]; rfl⟩
  | _ =>
    simp only [cast, castAtomic]
    split
    · exact ⟨_, rfl⟩
    · cases k <;> first | exact ⟨_, rfl⟩ | cases hk

theorem assignRecycled_of_lt {d c : Data Value} {ts : List Nat} (hkind : c.kind = d.kind)
    (hts : ∀ t ∈ ts, t < d.length) : ∃ e, d.assignRecycled ts c = .ok e := by
  have hall : ∀ {α : Type} (xs ss : List α), d.length = xs.length →
      assignElements xs ts ss = .ok (overwrite ss xs 0 ts) := by
    intro α xs ss hlen
    have hinside : ts.all (· < xs.length) = true := by simpa [← hlen] using hts
    rw [assignElements, hinside, Bool.or_true, if_pos rfl]
  cases d <;> cases c <;> first
    | exact ⟨_, by rw [assignRecycled, hall _ _ rfl]; rfl⟩
    | cases hkind

end Data

namespace Vec

theorem cast_upward {v : Vec Value} {k : Kind} (hk : k.isVector = true)
    (hle : v.kind.rank ≤ k.rank) : ∃ w, (v.cast k).result = .ok w := by
  unfold Vec.cast
  split
  · exact ⟨v, rfl⟩
  · obtain ⟨d, hd⟩ := Data.cast_upward hk hle
    rw [Noted.result_bind, hd]
    exact ⟨v.withData d, rfl⟩

variable {v value : Vec Value} {x : Value} {p : Subscript} {q : Position}

theorem grow_failsExactly [Memory] (hv : v.NamesFit) (hlen : v.length = x.length)
    (hneeds : (Selection.ofPosition v .replace q).length = x.needs p)
    (hgrows : x.length < x.needs p) :
    FailsExactly (x.Overflow p v.kind) (v.grow (Selection.ofPosition v .replace q)) := by
  have hroom : FailsExactly (x.Overflow p v.kind) (v.clearDim.data.extendTo (x.needs p)) := by
    rw [data_clearDim, Data.extendTo]
    have hshort : v.data.length < x.needs p := by
      rwa [show v.data.length = x.length from hlen]
    split
    · rename_i hlong
      exact .tooLong hgrows hlong
    rename_i hlong
    split
    · rename_i hfull
      exact .noRoom hgrows (Nat.le_of_not_lt hlong) hfull.2
    · rename_i hfull
      intro e he
      cases he with
      | tooLong _ h => exact hlong h
      | noRoom _ _ h => exact hfull ⟨hshort, h⟩
  -- there is always a place for the labels of what has grown, so only the room counts
  unfold grow
  rw [hneeds]
  refine hroom.before_ok fun longer hlonger => ?_
  simp only
  split
  · exact ⟨_, rfl⟩
  · have hnames := grownNames_ofPosition hv q
    unfold grownNames at hnames
    rw [hneeds] at hnames
    rw [hnames]
    have hgrown : longer.length = max x.length (x.needs p) := by
      rw [Data.length_extendTo hlonger, data_clearDim, show v.data.length = x.length from hlen]
    have hfresh := add_length_fresh_le v.length v.names? q
    change _ ≤ (Selection.ofPosition v .replace q).length at hfresh
    rw [hneeds] at hfresh
    refine ⟨_, setNames_eq_ok.2 ⟨?_, rfl⟩⟩
    change _ ≤ longer.length
    simp only [List.length_append, List.length_replicate, hv.length_paddedNames]
    omega

theorem store_failsExactly [Memory] (hv : v.NamesFit) {values : Data Value}
    (hkind : values.kind = v.kind) (hlen : v.length = x.length)
    (hneeds : (Selection.ofPosition v .replace q).length = x.needs p) :
    FailsExactly (x.Overflow p v.kind) (v.store (Selection.ofPosition v .replace q) values) := by
  have hreach : ∀ t ∈ (Selection.ofPosition v .replace q).targets, t < x.needs p :=
    fun t ht => hneeds ▸ Selection.lt_reach v.length ht
  unfold store
  simp only [Selection.growsPast, hneeds, hlen, decide_eq_true_eq]
  split
  · rename_i hgrows
    refine (grow_failsExactly hv hlen hneeds hgrows).before_ok fun room hroom => ?_
    have hlonger := (grow_eq_ok hroom).1
    have hroomLen : x.needs p ≤ room.data.length := by
      rw [Data.length_extendTo hlonger, hneeds]
      exact Nat.le_max_right _ _
    obtain ⟨d, hd⟩ := Data.assignRecycled_of_lt (hkind.trans (Data.kind_extendTo hlonger).symm)
      fun t ht => Nat.lt_of_lt_of_le (hreach t ht) hroomLen
    exact ⟨_, bind_eq_ok.2 ⟨d, hd, rfl⟩⟩
  · rename_i hfits
    have hroomLen : x.needs p ≤ v.data.length := by
      rw [show v.data.length = x.length from hlen]
      exact Nat.le_of_not_lt hfits
    obtain ⟨d, hd⟩ := Data.assignRecycled_of_lt hkind
      fun t ht => Nat.lt_of_lt_of_le (hreach t ht) hroomLen
    refine FailsExactly.after_ok ⟨v, rfl⟩ fun room hroom => ?_
    cases hroom
    refine FailsExactly.after_ok ⟨d, hd⟩ fun d hd e he => ?_
    cases he with
    | tooLong h => exact hfits h
    | noRoom h => exact hfits h

theorem assign_failsExactly [Memory] {k : Kind} (hv : v.NamesFit) (hk : k.isVector = true)
    (hvk : v.kind.rank ≤ k.rank) (hvaluek : value.kind.rank ≤ k.rank) (hlen : v.length = x.length)
    (hnames : v.names? = x.labels?) (hq : p.position = .ok q) :
    FailsExactly (fun e => x.Mismatch p value.length e ∨ x.Overflow p k e)
      (v.assign (Selection.ofPosition v .replace q) value k).result := by
  have htargets : (Selection.ofPosition v .replace q).targets = x.aims p := by
    refine (Selection.targets_eq_aims hq).trans ?_
    rw [hlen, hnames]
    rfl
  have hneeds : (Selection.ofPosition v .replace q).length = x.needs p := by
    change Selection.reach v.length (Selection.ofPosition v .replace q).targets = _
    rw [htargets, hlen]
    rfl
  have hmissing : none ∈ (Selection.ofPosition v .replace q).indices ↔ p.HasMissing :=
    Selection.none_mem_indices_iff.trans (Subscript.hasMissing_position hq)
  rw [result_assign]
  refine (assignable_failsExactly hmissing htargets _).bind fun _ _ => ?_
  refine .after_ok (cast_upward hk hvk) fun old hold => ?_
  refine .after_ok (Data.cast_upward hk hvaluek) fun values hvalues => ?_
  have holdData := Data.kind_length_of_cast (cast_eq_ok hold).1
  have hkind : values.kind = old.kind :=
    (Data.kind_length_of_cast hvalues).1.trans holdData.1.symm
  have holdKind : old.kind = k := holdData.1
  rw [← ofPosition_of_cast hold] at hneeds ⊢
  rw [← holdKind]
  exact store_failsExactly (namesFit_of_cast hv hold) hkind (holdData.2.trans hlen) hneeds

end Vec

theorem Value.containerOf_vector {x : Value} {k : Kind} (hx : x.kind.isVector ∨ x.kind = .null)
    (hk : k.isVector = true) (hle : x.kind.rank ≤ k.rank) :
    ∃ v : Vec Value, x.containerOf k = .ok v ∧ v.kind.rank ≤ k.rank := by
  cases x with
  | null =>
    obtain ⟨d, hd⟩ := Option.isSome_iff_exists.1 ((Data.holes?_isSome k 0).trans hk)
    have hkind : d.kind = k := (Data.kind_length_of_holes? hd).1
    refine ⟨⟨d, none, true⟩, ?_, Nat.le_of_eq (congrArg Kind.rank hkind)⟩
    simp only [containerOf, Vec.empty?, hd, Option.map_some]
  | vector v => exact ⟨v, rfl, hle⟩
  | _ => rcases hx with hx | hx <;> cases hx

theorem Value.isVector_asElements (x : Value) : x.asElements.kind.isVector = true :=
  Data.kind_isVector _

theorem Value.length_asElements {x : Value} (hx : x ≠ .null) : x.asElements.length = x.length := by
  cases x with
  | null => exact absurd rfl hx
  | _ => rfl

theorem Kind.isVector_promote {a b : Kind} (ha : a.isVector ∨ a = .null) (hb : b.isVector = true) :
    (a.promote b).isVector = true := by
  unfold promote
  split
  · exact hb
  · rename_i hrank
    rcases ha with ha | rfl
    · exact ha
    · exact absurd (Nat.zero_le _) hrank

theorem Value.assignSubset_failsExactly [Memory] {x value : Value} {p : Subscript} {k : Kind}
    (hx : x.kind.isVector ∨ x.kind = .null)
    (hnames : ∀ ns, x.labels? = some ns → ns.length = x.length) (hvalue : value ≠ .null)
    (hk : k = x.kind.promote value.asElements.kind) :
    FailsExactly (x.Refuses p value) (x.assignSubset [p] value k).result := by
  have hvector : k.isVector = true := hk ▸ Kind.isVector_promote hx value.isVector_asElements
  obtain ⟨hxk, hvaluek⟩ := (Kind.rank_promote_le_iff x.kind value.asElements.kind k).1
    (Nat.le_of_eq (congrArg Kind.rank hk.symm))
  obtain ⟨v, hv, hvk⟩ := Value.containerOf_vector hx hvector hxk
  obtain ⟨hlen, hlabels, -⟩ := Value.containerOf_eq_ok hv
  have hfit : v.NamesFit := fun ns hns => (hnames ns (hlabels ▸ hns)).trans hlen.symm
  unfold assignSubset
  simp only [Noted.result_bind, Noted.result_lift, isNull_eq_false hvalue, Bool.false_eq_true,
    if_false]
  refine .after_ok ⟨v, hv⟩ fun u hu => ?_
  obtain rfl : v = u := Except.ok.inj (hv.symm.trans hu)
  refine p.position_failsExactly.bind fun q hq => ?_
  rw [← length_asElements hvalue, ← hk]
  exact Vec.assign_failsExactly hfit hvector hvk hvaluek hlen hlabels hq

/-- `x[p] <- value` fails exactly if the subscript stands for no position, a place is missing and
the value does not have one element, there is no element for a place that is not, there are more
elements than there are places, or the container would get too long. Anything else is stored, with
whatever casts and labels that takes. -/
theorem subset_assignment_fails_exactly [Memory] (rs : ω) (x : Value) (p : Subscript)
    (value : Value) (hx : x.kind.isVector ∨ x.kind = .null)
    (hnames : ∀ ns, x.labels? = some ns → ns.length = x.length) (hvalue : value ≠ .null) :
    ((∃ e, (replace rs x [p] value .subset).result = .error e) ↔
      ∃ e, x.Refuses p value e) ∧
    (∀ e, (replace rs x [p] value .subset).result = .error e → x.Refuses p value e) ∧
    ((∀ e, ¬x.Refuses p value e) →
      ∃ w, (replace rs x [p] value .subset).result = .ok (.vector w, rs)) := by
  have hfails : FailsExactly (x.Refuses p value)
      (replace rs x [p] value .subset).result := by
    rw [replace_subset rs p hx hvalue, Noted.result_bind]
    exact (Value.assignSubset_failsExactly hx hnames hvalue rfl).before_ok fun w _ => ⟨_, rfl⟩
  refine ⟨hfails.error_iff, fun e => hfails.of_error, fun hfree => ?_⟩
  cases hr : (replace rs x [p] value .subset).result with
  | error e => exact absurd (hfails.of_error hr) (hfree e)
  | ok r =>
    rw [replace_subset rs p hx hvalue, Noted.result_bind] at hr
    obtain ⟨w, -, hw⟩ := bind_eq_ok.1 hr
    cases hw
    exact ⟨w, rfl⟩

section

local instance threeElements : Memory := ⟨fun _ n => decide (n ≤ 3)⟩

/-- Two elements do not go with a missing mark. There is no room for a fourth element, but for a
third. Where nothing is written to, any number of elements does. -/
theorem subset_assignment_fails_exactly_missingMark :
    (∃ e, (replace ([] : Records) (.vector (.ofData (.integer [1, 2])))
      [.given (.vector (.ofData (.logical [some true, none])))]
      (.vector (.ofData (.integer [7, 8]))) .subset).result = .error e) ∧
    (∃ e, (replace ([] : Records) (.vector (.ofData (.integer [1, 2])))
      [.given (.vector (.ofData (.integer [4])))]
      (.vector (.ofData (.integer [7]))) .subset).result = .error e) ∧
    (replace ([] : Records) (.vector (.ofData (.integer [1, 2])))
      [.given (.vector (.ofData (.integer [3])))]
      (.vector (.ofData (.integer [7]))) .subset).result =
        .ok (.vector ⟨.integer [1, 2, 7], none, false⟩, []) ∧
    ∃ w, (replace ([] : Records) (.vector (.ofData (.integer [1, 2]))) [.given .null]
      (.vector (.ofData (.integer [7, 8, 9]))) .subset).result = .ok (.vector w, []) := by
  have hfails := fun p value => subset_assignment_fails_exactly ([] : Records)
    (.vector (.ofData (.integer [1, 2]))) p value (.inl rfl) (fun ns hns => by cases hns)
  have hmark := (hfails (.given (.vector (.ofData (.logical [some true, none]))))
    (.vector (.ofData (.integer [7, 8]))) (by simp)).1
  have hfourth := (hfails (.given (.vector (.ofData (.integer [4]))))
    (.vector (.ofData (.integer [7]))) (by simp)).1
  have hnowhere := (hfails (.given .null) (.vector (.ofData (.integer [7, 8, 9]))) (by simp)).2.2
  refine ⟨hmark.2 ⟨_, .inr (.inl (.missing ?_ (by decide)))⟩,
    hfourth.2 ⟨_, .inr (.inr (.noRoom (by decide) (by decide) rfl))⟩, rfl, hnowhere ?_⟩
  · exact List.mem_cons_of_mem _ List.mem_cons_self
  rintro e (hmalformed | hmismatch | hoverflow)
  · cases hmalformed with
    | kind hkind => cases hkind
    | signs hmixed =>
      obtain ⟨⟨k, hk, -⟩, -⟩ := hmixed
      cases hk
  · cases hmismatch with
    | missing hmissing => exact hmissing
    | empty _ hw => cases hw
    | excess hsome => exact hsome rfl
  · cases hoverflow with
    | tooLong hgrows => exact absurd hgrows (by decide)
    | noRoom hgrows => exact absurd hgrows (by decide)

end

end LazyVectors
