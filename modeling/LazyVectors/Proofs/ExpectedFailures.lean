import LazyVectors.Proofs.Invariants
import LazyVectors.Proofs.RecentPlans
/-!
No access shows a mistake of the library. Whatever the values are, a plan suits the access that
it is carried out for, at every step of a path as well: elements that are written have the kind
of the vector, `NULL` takes the kind of a vector, and a subscript that is looked for is there.
What is left are failures that tell of a wrong use, labels of vectors that have too few of them,
and what foreign objects report.
-/

set_option autoImplicit false

namespace LazyVectors

def opening (message : String) : List Char := message.toList.take 9

def internalOpenings : List (List Char) := ["internal ".toList, "cannot cr".toList]

theorem InternalFault.opening_message (f : InternalFault) :
    opening f.message ∈ internalOpenings := by
  unfold InternalFault.message
  cases f <;> simp [opening, internalOpenings, toString]

theorem IndexFault.opening_message (f : IndexFault) : opening f.message ∉ internalOpenings := by
  unfold IndexFault.message
  cases f <;> simp [opening, internalOpenings, toString]

theorem CoercionFault.opening_message (f : CoercionFault) :
    opening f.message ∉ internalOpenings := by
  unfold CoercionFault.message
  cases f <;> simp [opening, internalOpenings, toString]

theorem InternalFault.message_ne_of_opening {message : String}
    (h : opening message ∉ internalOpenings) (f : InternalFault) : message ≠ f.message :=
  fun hsame => h (hsame ▸ f.opening_message)

namespace Failure

theorem Expected.opening_message {e : Failure} (he : e.Expected) :
    opening e.message ∉ internalOpenings := by
  cases e with
  | index f => exact f.opening_message
  | coercion f => exact f.opening_message
  | foreignAccess f =>
    change opening f.message ∉ internalOpenings
    unfold KeyFault.message
    cases f with
    | reported => cases he
    | _ => simp [opening, internalOpenings, toString]
  | runtime f =>
    change opening f.message ∉ internalOpenings
    unfold RuntimeFault.message
    cases f with
    | notSubsettable | fieldOfAtomic | invalidField | allocation =>
      simp [opening, internalOpenings, toString]
    | _ => cases he
  | _ => cases he

theorem message_outOfRange_ne {f : InternalFault} (hf : f ≠ .outOfRange) :
    (internal .outOfRange).message ≠ f.message := by
  change InternalFault.outOfRange.message ≠ f.message
  intro h
  have hletter := congrArg (fun m : String => m.toList[16]?) h
  unfold InternalFault.message at hletter
  cases f with
  | outOfRange => exact hf rfl
  | _ => simp [toString] at hletter

theorem not_outOfRange_internal {f : InternalFault} (hf : f ≠ .outOfRange) :
    ¬OutOfRange (internal f) := by
  simpa [OutOfRange, internal] using hf

end Failure

namespace Foreign

variable (ω : Type) [Foreign ω]

/-- A failure that some object answers with when it is asked or written to. -/
def Reports (e : Failure) : Prop :=
  ∃ (rs : ω) (object : String) (key : Key),
    get rs object key = .error e ∨ ∃ x, set rs object key x = .error e

/-- Objects do not report in the words of faults inside the library. -/
def WordedApart : Prop := ∀ e, Reports ω e → ∀ f : InternalFault, e.message ≠ f.message

end Foreign

namespace Record

variable {r : Record} {key : String} {e : Failure}

theorem opening_failing (key : String) :
    opening s!"failing member {key}" ∉ internalOpenings := by
  simp [opening, internalOpenings, toString]

theorem opening_absent (key : String) : opening s!"no member {key}" ∉ internalOpenings := by
  simp [opening, internalOpenings, toString]

theorem opening_of_read (h : r.read key = .error e) : opening e.message ∉ internalOpenings := by
  unfold read at h
  split at h
  · obtain rfl := Except.error.inj h
    exact opening_failing key
  split at h
  · cases h
  · obtain rfl := Except.error.inj h
    exact opening_absent key

theorem opening_of_write {x : Value} (h : r.write key x = .error e) :
    opening e.message ∉ internalOpenings := by
  unfold write at h
  split at h
  · obtain rfl := Except.error.inj h
    exact opening_failing key
  · cases h

end Record

theorem Records.wordedApart : Foreign.WordedApart Records := by
  rintro e ⟨rs, object, key, h | ⟨x, h⟩⟩
  · exact InternalFault.message_ne_of_opening (Record.opening_of_read h)
  · change rs.writeMember object key.text x = .error e at h
    unfold writeMember at h
    cases hw : (rs.get object).write key.text x with
    | ok r =>
      rw [hw] at h
      cases h
    | error e' =>
      rw [hw] at h
      obtain rfl := Except.error.inj h
      exact InternalFault.message_ne_of_opening (Record.opening_of_write hw)

def Failure.Hidden (ω : Type) [Foreign ω] (e : Failure) : Prop :=
  e.Unexpected ∧ ¬OutOfRange e ∧ ¬Foreign.Reports ω e

variable {ω : Type} [Foreign ω]

namespace Failure

variable {e : Failure}

theorem Hidden.unexpected (h : Hidden ω e) : e.Unexpected := h.1

theorem not_hidden_outOfRange : ¬Hidden ω (internal .outOfRange) := fun h => h.2.1 rfl

theorem not_hidden_iff : ¬Hidden ω e ↔ e.Expected ∨ OutOfRange e ∨ Foreign.Reports ω e := by
  rw [Hidden, not_and_or, not_unexpected_iff, not_and_or, Classical.not_not, Classical.not_not]

theorem message_ne_of_not_hidden (hω : Foreign.WordedApart ω) (he : ¬Hidden ω e)
    {f : InternalFault} (hf : f ≠ .outOfRange) : e.message ≠ f.message := by
  rcases not_hidden_iff.1 he with hexpected | hrange | hreported
  · exact InternalFault.message_ne_of_opening hexpected.opening_message f
  · rw [hrange]
    exact message_outOfRange_ne hf
  · exact hω e hreported f

end Failure

theorem Key.ordinary_ofSubscripts (ss : List Subscript) : Ordinary (ofSubscripts ss) := by
  unfold ofSubscripts
  split
  · split
    · exact .ok _
    · exact .error (by simp)
  · exact .error (by simp)

namespace Foreign

variable (rs : ω) (object : String) (ss : List Subscript)

theorem avoids_hidden_read : Avoids (Failure.Hidden ω) (read rs object ss) := by
  have hkey := (Key.ordinary_ofSubscripts ss).avoids fun _ => Failure.Hidden.unexpected (ω := ω)
  refine hkey.bind fun key _ => ?_
  split
  · rename_i o _
    cases hget : get rs o key with
    | ok y => exact .ok y
    | error e => exact fun he => he.2.2 ⟨rs, o, key, .inl hget⟩
  · exact fun he => he.1 (by simp)

theorem avoids_hidden_write (x : Value) : Avoids (Failure.Hidden ω) (write rs object ss x) := by
  have hkey := (Key.ordinary_ofSubscripts ss).avoids fun _ => Failure.Hidden.unexpected (ω := ω)
  refine hkey.bind fun key _ => ?_
  split
  · rename_i o _
    cases hset : set rs o key x with
    | ok rs' => exact .ok rs'
    | error e => exact fun he => he.2.2 ⟨rs, o, key, .inr ⟨x, hset⟩⟩
  · exact fun he => he.1 (by simp)

end Foreign

/-- Nothing is asked of values, foreign objects or subscripts. -/
def openContract (ω : Type) [Foreign ω] : Contract ω :=
  ⟨fun _ => True, fun _ => True, fun _ => True, Failure.Hidden ω⟩

theorem kept_openContract [Memory] : (openContract ω).Kept where
  fault _ := Failure.Hidden.unexpected
  plain := ⟨trivial, fun _ => trivial⟩
  step _ _ := trivial
  subset ss _ := Vec.avoids_subset (fun _ => Failure.Hidden.unexpected)
    (fun h => absurd h Failure.not_hidden_outOfRange) ss
  subsetArray ss drop _ _ := Vec.avoids_subsetArray (fun _ => Failure.Hidden.unexpected)
    (fun h => absurd h Failure.not_hidden_outOfRange) ss drop
  assign value k _ hsel := Vec.avoids_assign (fun _ => Failure.Hidden.unexpected)
    (fun h => absurd h Failure.not_hidden_outOfRange) hsel value k
  delete ss mode _ := (Vec.ordinary_delete _ ss mode).avoids fun _ => Failure.Hidden.unexpected
  cast k _ := (Vec.ordinary_cast _ k).avoids fun _ => Failure.Hidden.unexpected
  read ss _ _ := (Foreign.avoids_hidden_read _ _ ss).sound
    fun y _ => Value.throughout_of_forall (fun _ => trivial) y
  write ss _ _ _ := Foreign.avoids_hidden_write _ _ ss _

theorem avoids_hidden_extract [Memory] (rs : ω) (x : Value) (ss : List Subscript) (mode : Mode)
    (drop : Bool) : Avoids (Failure.Hidden ω) (extract rs x ss mode drop) :=
  (kept_openContract.extract trivial (Value.throughout_of_forall (fun _ => trivial) x)
    (fun _ _ => trivial) mode drop).imp fun _ _ _ => trivial

theorem avoids_hidden_replace [Memory] (rs : ω) (x : Value) (ss : List Subscript)
    (value : Value) (mode : Mode) :
    Avoids (Failure.Hidden ω) (replace rs x ss value mode).result :=
  (kept_openContract.replace trivial (Value.throughout_of_forall (fun _ => trivial) x)
    (Value.throughout_of_forall (fun _ => trivial) value) mode).imp fun _ _ _ => trivial

theorem Ordinary.inRange {α : Type} {r : Except Failure α} (hr : Ordinary r) :
    Avoids OutOfRange r := hr.avoids fun _ => OutOfRange.unexpected

theorem Shape.not_isMatrix_nil (x : Value) (value : Option Value) (mode : Mode) :
    ¬(Shape.of x [] value mode).isMatrix = true := by
  simp only [isMatrix, Shape.of, List.map_nil, List.length_nil, Bool.and_eq_true, beq_iff_eq,
    decide_eq_true_eq]
  omega

theorem Shape.not_isPath_nil (x : Value) (mode : Mode) : ¬isPath x [] mode = true := by
  simp [isPath]

theorem Vec.avoids_assign_everything [Memory] (v value : Vec Value) (k : Kind) :
    Avoids OutOfRange (v.assign (Selection.ofPosition v .replace .everything) value k).result := by
  have htargets : ∀ t ∈ (Selection.ofPosition v .replace .everything).targets, t < v.length := by
    intro t ht
    simpa [Selection.ofPosition, Selection.resolve, Selection.places, Selection.targets] using ht
  have hlength : (Selection.ofPosition v .replace .everything).length = v.length :=
    Selection.reach_of_lt htargets
  refine avoids_assign_of_store (fun _ => OutOfRange.unexpected) fun old values hold hkind => ?_
  have hold : old.length = v.length := (Data.kind_length_of_cast (cast_eq_ok hold).1).2
  refine avoids_store_within ?_ hkind fun _ t ht => hold ▸ htargets t ht
  simp [Selection.growsPast, hlength, hold]

namespace Value

theorem avoids_containerOf (x : Value) (k : Kind) : Avoids OutOfRange (x.containerOf k) := by
  cases x with
  | vector v => exact .ok _
  | null =>
    unfold containerOf
    simp only
    split
    · exact .ok _
    · exact Failure.not_outOfRange_internal (by simp)
  | _ => exact Ordinary.inRange (.error (by simp))

end Value

theorem avoids_extract_nil (rs : ω) (x : Value) (mode : Mode) (drop : Bool) :
    Avoids OutOfRange (extract rs x [] mode drop) := by
  refine ((ExtractPlan.sound_build _).weaken fun _ => OutOfRange.unexpected).bind ?_
  rintro ⟨_, t⟩ ⟨rfl, ht⟩
  cases x with
  | foreign object => exact Ordinary.inRange (.error (by simp))
  | null => exact Avoids.ok _
  | symbol name => exact Ordinary.inRange (.error (by simp))
  | closure f => exact Ordinary.inRange (.error (by simp))
  | vector v =>
    cases t with
    | foreign | null => exact Failure.not_outOfRange_internal (by simp)
    | subset => exact Avoids.ok _
    | matrix => exact absurd ht (Shape.not_isMatrix_nil _ _ _)
    | element => exact absurd rfl ht
    | path => exact absurd ht (Shape.not_isPath_nil _ _)
    | field => exact Ordinary.inRange ((ordinary_fieldName []).bind fun name _ => .ok _)

theorem avoids_replace_nil [Memory] (rs : ω) (x value : Value) (mode : Mode) :
    Avoids OutOfRange (replace rs x [] value mode).result := by
  have hnative {r : Noted (Vec Value)} (hr : Avoids OutOfRange r.result) : Avoids OutOfRange
      (do return (.vector (← r), rs) : Noted (Value × ω)).result :=
    ReplacePlan.sound_native hr fun _ _ => trivial
  unfold replace
  rw [Noted.result_bind]
  refine ((ReplacePlan.sound_build _).weaken fun _ => OutOfRange.unexpected).bind ?_
  rintro ⟨_, t⟩ ⟨rfl, ht⟩
  cases t with
  | foreign =>
    obtain ⟨object, rfl⟩ := Value.exists_foreign ht
    unfold ReplacePlan.run ReplacePlan.runWith
    exact Ordinary.inRange (.error (by simp))
  | path => exact absurd ht (Shape.not_isPath_nil _ _)
  | unchanged => exact Avoids.ok _
  | delete =>
    refine hnative (Ordinary.inRange ?_)
    rw [Noted.result_bind]
    exact Sound.bind x.sound_asContainer fun v _ => v.ordinary_delete [] mode
  | field =>
    refine hnative (Ordinary.inRange ?_)
    unfold Value.assignField
    rw [Noted.result_bind]
    exact (ordinary_fieldName []).bind fun name hname => nomatch hname
  | matrix k => exact absurd ht (Shape.not_isMatrix_nil _ _ _)
  | element k => exact absurd rfl ht.1
  | subset k =>
    refine hnative ?_
    unfold Value.assignSubset
    simp only [Noted.result_bind]
    refine (x.avoids_containerOf k).bind fun v _ => ?_
    refine Avoids.bind (r := .ok Position.everything) (.ok _) fun p hp => ?_
    cases hp
    split
    · split
      · exact Avoids.ok _
      · exact Ordinary.inRange (.error (by simp))
    · exact v.avoids_assign_everything _ _

/-- A result, or a failure that tells of a wrong use or of an access out of range or that a foreign
object reports, and that is not worded like any other fault inside the library. If there are no
subscripts, none was looked for. -/
structure Foreseen (ω : Type) [Foreign ω] {α : Type} (ss : List Subscript)
    (r : Except Failure α) : Prop where
  cause : ∀ e, r = .error e → e.Expected ∨ OutOfRange e ∨ Foreign.Reports ω e
  wording : ∀ e, r = .error e → ∀ f : InternalFault, f ≠ .outOfRange → e.message ≠ f.message
  first : ss = [] → r ≠ .error (.internal .outOfRange)

section

variable (hω : Foreign.WordedApart ω)
include hω

theorem Foreseen.of_avoids {α : Type} {ss : List Subscript} {r : Except Failure α}
    (hall : Avoids (Failure.Hidden ω) r) (hnil : ss = [] → Avoids OutOfRange r) :
    Foreseen ω ss r := by
  refine ⟨?_, ?_, ?_⟩
  · rintro e rfl
    exact Failure.not_hidden_iff.1 hall
  · rintro e rfl f hf
    exact Failure.message_ne_of_not_hidden hω hall hf
  · rintro hss rfl
    exact hnil hss rfl

theorem foreseen_extract [Memory] (rs : ω) (x : Value) (ss : List Subscript) (mode : Mode)
    (drop : Bool) : Foreseen ω ss (extract rs x ss mode drop) :=
  .of_avoids hω (avoids_hidden_extract rs x ss mode drop) fun hss =>
    hss ▸ avoids_extract_nil rs x mode drop

theorem foreseen_replace [Memory] (rs : ω) (x : Value) (ss : List Subscript) (value : Value)
    (mode : Mode) : Foreseen ω ss (replace rs x ss value mode).result :=
  .of_avoids hω (avoids_hidden_replace rs x ss value mode) fun hss =>
    hss ▸ avoids_replace_nil rs x value mode

/-- However an access is made, and whatever was asked of a cache before, it does not fail with a
fault inside the library, and a first subscript is looked for only where there is one, if foreign
objects do not report such a fault themselves. -/
theorem access_failures_foreseen [Memory] (rs : ω) (x value : Value) (ss : List Subscript)
    (mode : Mode) (drop : Bool) :
    Foreseen ω ss (extract rs x ss mode drop) ∧
    Foreseen ω ss (replace rs x ss value mode).result ∧
    ∀ size : Nat,
      (∀ earlier : List (CacheRequest (Reading ω)), Foreseen ω ss (Extractor.apply
        (PlanCache.after Reading.through (.ofSize size) earlier) rs x ss mode drop).1) ∧
      ∀ earlier : List (CacheRequest (Writing ω)), Foreseen ω ss (Replacer.apply
        (PlanCache.after Writing.through (.ofSize size) earlier) rs x ss value mode).1.result := by
  refine ⟨foreseen_extract hω rs x ss mode drop, foreseen_replace hω rs x ss value mode,
    fun size => ⟨fun earlier => ?_, fun earlier => ?_⟩⟩
  · have hc := (PlanCache.tracks_after Reading.cache_through size earlier).genuine
    obtain ⟨c', happly, -⟩ := Extractor.apply_eq hc rs x ss mode drop
    rw [happly]
    exact foreseen_extract hω rs x ss mode drop
  · have hc := (PlanCache.tracks_after Writing.cache_through size earlier).genuine
    obtain ⟨c', happly, -⟩ := Replacer.apply_eq hc rs x ss value mode
    rw [happly]
    exact foreseen_replace hω rs x ss value mode

end

def failingObject : Records := [("o", { members := [("a", .null)], failing := ["a"] })]

section

attribute [local instance] Memory.unbounded

/-- What an object reports comes through, and does not pass for a fault inside the library. -/
theorem access_failures_foreseen_reported :
    extract failingObject (.foreign "o") [.given (.string "a")] .element true =
      .error (.foreignAccess (.reported "failing member a")) ∧
    ∀ f : InternalFault, f ≠ .outOfRange → "failing member a" ≠ f.message := by
  have hfails : extract failingObject (.foreign "o") [.given (.string "a")] .element true =
      .error (.foreignAccess (.reported "failing member a")) := rfl
  have hread := (access_failures_foreseen Records.wordedApart failingObject (.foreign "o") .null
    [.given (.string "a")] .element true).1
  exact ⟨hfails, hread.wording _ hfails⟩

end

end LazyVectors
