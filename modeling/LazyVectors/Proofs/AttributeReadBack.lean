import LazyVectors.Proofs.ArrayParts
import LazyVectors.Proofs.WholeDoubles
/-!
What setters of attributes leave to be read. Each takes just what fits the vector, writes one
attribute and leaves the rest alone. Labels are read as they were given; extents pass through 32
bits on the way, which no product bounds where another extent is zero.
-/

set_option autoImplicit false

namespace LazyVectors

namespace Vec

/-- One attribute is written: last if it is new, and in its place if it is not. The elements, the
flag and the other attributes in their order are as before. -/
structure Wrote (v : Vec Value) (name : String) (x : Value) (w : Vec Value) : Prop where
  data : w.data = v.data
  complete : w.complete = v.complete
  inPlace : ∀ i, (v.attributes.getD []).findIdx? (·.1 == name) = some i →
    w.attributes = some ((v.attributes.getD []).set i (name, x))
  last : (v.attributes.getD []).findIdx? (·.1 == name) = none →
    w.attributes = some (v.attributes.getD [] ++ [(name, x)])

/-- Extents are read as they are kept. These are the extents that were given exactly if none is too
large, which in a vector that is neither empty nor too long itself none can be. -/
structure KeepsExtents (w : Vec Value) (ds : List Nat) : Prop where
  read : w.dim? = some (ds.map keptExtent)
  same : w.dim? = some ds ↔ ∀ d ∈ ds, d < extentBound
  short : 0 < w.length → w.length < extentBound → w.dim? = some ds

def FitExtents (v : Vec Value) (ls : List (Option (List (Option String)))) : Prop :=
  ∃ ds, v.dim? = some ds ∧ List.Forall₂ (fun d l => ∀ ns, l = some ns → ns.length = d) ds ls

variable {v w : Vec Value}

theorem wrote_putAttribute (v : Vec Value) (name : String) {x : Value} (hx : x.isNull = false) :
    v.Wrote name x (v.putAttribute name x) where
  data := rfl
  complete := rfl
  inPlace i hi := by simp only [putAttribute, Attributes.put, hx, Named.put_of_place hi]; rfl
  last hnew := by simp only [putAttribute, Attributes.put, hx, Named.put_of_new hnew]; rfl

theorem keepsExtents_of_kept {ds : List Nat} (hproduct : extentProduct ds = some w.length)
    (h : w.attribute? "dim" = some (.vector (.ofData (.integer (ds.map Int32.ofNat))))) :
    w.KeepsExtents ds := by
  have hread : w.dim? = some (ds.map keptExtent) := dim?_of_kept h
  have hsame : w.dim? = some ds ↔ ∀ d ∈ ds, d < extentBound := by
    rw [hread, Option.some.injEq, map_keptExtent_eq_iff]
  refine ⟨hread, hsame, fun hpos hshort => hsame.2 ?_⟩
  have hvolume : volume ds = w.length := extentProduct_eq_some hproduct
  rw [← hvolume] at hpos hshort
  exact (volume_eq_zero_or_small hshort).resolve_left (Nat.ne_of_gt hpos)

theorem setDimnames_eq_ok {ls : List (Option (List (Option String)))} :
    v.setDimnames ls = .ok w ↔ v.FitExtents ls ∧
      w = v.putAttribute "dimnames" (.vector (.ofList (ls.map labelValue))) := by
  unfold setDimnames FitExtents
  cases hdim : v.dim? with
  | none => simp
  | some ds =>
    by_cases hlen : ls.length = ds.length
    · simp only [ne_eq, hlen, not_true_eq_false, if_false, bind_eq_ok, extentLabels_eq_ok hlen,
        Option.some.injEq, exists_eq_left', and_assoc, exists_and_left, exists_eq_left]
      exact and_congr_right fun _ => ⟨fun h => (Except.ok.inj h).symm, fun h => congrArg _ h.symm⟩
    · simp only [ne_eq, hlen, not_false_eq_true, if_true, Option.some.injEq, exists_eq_left']
      exact ⟨fun h => (nomatch h), fun h => absurd h.1.length_eq.symm hlen⟩

theorem setAttribute_dim {x : Value} (hx : x.isNull = false) :
    v.setAttribute "dim" x = dimOf x >>= v.setDim := by
  simp [setAttribute, hx]

theorem eq_of_extentOf_toInt {i : Int32} {n : Nat} (h : extentOf (.ofInt i.toInt) = .ok n) :
    n = i.toInt.toNat := by
  obtain ⟨-, hfinite, htruncate⟩ := Double.whole_toInt i
  have hhigh := i.toInt_lt
  unfold extentOf at h
  split at h
  · cases h
  · cases h
    rw [Double.truncateWithin, hfinite, htruncate, if_neg Bool.false_ne_true]
    have hsize : UInt64.size = 18446744073709551616 := rfl
    omega

theorem eq_of_mapM_extentOf {is : List Int32} {ds : List Nat}
    (h : (is.map (Double.ofInt ·.toInt)).mapM extentOf = .ok ds) : ds = is.map (·.toInt.toNat) := by
  induction is generalizing ds with
  | nil =>
    cases h
    rfl
  | cons i is ih =>
    rw [List.map_cons, List.mapM_cons] at h
    obtain ⟨n, hn, h⟩ := bind_eq_ok.1 h
    obtain ⟨ns, hns, h⟩ := bind_eq_ok.1 h
    cases h
    rw [eq_of_extentOf_toInt hn, ih hns, List.map_cons]

theorem eq_of_dimOf_integer {is : List Int32} {as : Option Attributes} {c : Bool} {ds : List Nat}
    (h : dimOf (.vector ⟨.integer is, as, c⟩) = .ok ds) : ds = is.map (·.toInt.toNat) := by
  obtain ⟨xs, hxs, h⟩ := bind_eq_ok.1 h
  cases hxs
  beta_reduce at h
  split at h
  · cases h
  · exact eq_of_mapM_extentOf h

end Vec

namespace Setter

/-- A setter of one attribute: it takes what fits, and then nothing but this attribute is written,
which is read as it should be. What it refuses changes nothing. -/
structure Writes (s : Setter) (v : Vec Value) (name : String) (fits : Prop)
    (reads : Vec Value → Prop) : Prop where
  accepts : (∃ w, s.apply v = .ok w) ↔ fits
  written : ∀ w, s.apply v = .ok w → s.after v = w ∧ (∃ x, v.Wrote name x w) ∧ reads w
  refused : ∀ f, s.apply v = .error f → s.after v = v

variable {s : Setter} {v : Vec Value} {name : String} {fits : Prop} {reads : Vec Value → Prop}

theorem Writes.of_put {x : Value} (hx : x.isNull = false)
    (happly : ∀ w, s.apply v = .ok w ↔ fits ∧ w = v.putAttribute name x)
    (hreads : fits → reads (v.putAttribute name x)) : s.Writes v name fits reads where
  accepts := ⟨fun ⟨w, hw⟩ => ((happly w).1 hw).1, fun h => ⟨_, (happly _).2 ⟨h, rfl⟩⟩⟩
  written w hw := by
    obtain ⟨hfits, rfl⟩ := (happly w).1 hw
    refine ⟨?_, ⟨x, Vec.wrote_putAttribute v name hx⟩, hreads hfits⟩
    rw [after, hw]
  refused f hf := by rw [after, hf]

theorem writes_names (v : Vec Value) (ns : List (Option String)) :
    (names (some ns)).Writes v "names" (ns.length ≤ v.length) fun w =>
      w.names? = some (ns ++ List.replicate (v.length - ns.length) none) := by
  refine .of_put rfl (fun w => Vec.setNames_eq_ok) fun _ => ?_
  rw [Vec.names?, Vec.attribute?_putAttribute_self v "names" rfl]
  rfl

theorem writes_dim (v : Vec Value) (ds : List Nat) :
    (dim (some ds)).Writes v "dim" (extentProduct ds = some v.length) (·.KeepsExtents ds) :=
  .of_put rfl (fun _ => setDim_eq_ok) fun hproduct =>
    Vec.keepsExtents_of_kept hproduct (Vec.attribute?_putAttribute_self v "dim" rfl)

theorem writes_dimnames (v : Vec Value) (ls : List (Option (List (Option String)))) :
    (dimnames ls).Writes v "dimnames" (v.FitExtents ls) fun w => w.dimnames? = some ls := by
  refine .of_put rfl (fun w => Vec.setDimnames_eq_ok) fun _ => ?_
  rw [Vec.dimnames?, Vec.attribute?_putAttribute_self v "dimnames" rfl]
  exact congrArg some (Vec.map_extentNames?_labelValue ls)

theorem writes_byName_dim (v : Vec Value) {x : Value} (hx : x.isNull = false) :
    (byName "dim" x (by decide)).Writes v "dim"
      (∃ ds, Vec.dimOf x = .ok ds ∧ extentProduct ds = some v.length)
      fun w => ∀ ds, Vec.dimOf x = .ok ds → w.KeepsExtents ds := by
  have happly : ∀ w, (byName "dim" x (by decide)).apply v = .ok w ↔
      ∃ ds, Vec.dimOf x = .ok ds ∧ (dim (some ds)).apply v = .ok w := fun w => by
    rw [apply, Vec.setAttribute_dim hx, bind_eq_ok]
    rfl
  refine ⟨?_, fun w hw => ?_, fun f hf => by rw [after, hf]⟩
  · simp only [happly]
    rw [exists_comm]
    exact exists_congr fun ds => by rw [exists_and_left, (writes_dim v ds).accepts]
  · obtain ⟨ds, hds, hset⟩ := (happly w).1 hw
    obtain ⟨-, hwrote, hkeeps⟩ := (writes_dim v ds).written w hset
    refine ⟨by rw [after, hw], hwrote, fun ds' hds' => ?_⟩
    obtain rfl := Except.ok.inj (hds.symm.trans hds')
    exact hkeeps

theorem dim?_of_byName_integer {is : List Int32} {as : Option Attributes} {c : Bool} {w : Vec Value}
    (h : (byName "dim" (.vector ⟨.integer is, as, c⟩) (by decide)).apply v = .ok w) :
    w.dim? = some (is.map (·.toInt.toNat)) := by
  have hwrites := writes_byName_dim v (x := .vector ⟨.integer is, as, c⟩) rfl
  obtain ⟨ds, hds, -⟩ := hwrites.accepts.1 ⟨w, h⟩
  have hkeeps := (hwrites.written w h).2.2 ds hds
  obtain rfl := Vec.eq_of_dimOf_integer hds
  refine hkeeps.same.2 (List.forall_mem_map.2 fun i _ => ?_)
  have hhigh := i.toInt_lt
  unfold extentBound
  omega

end Setter

/-- What a setter of labels, of extents or of labels along them leaves in any vector: it succeeds
just where the argument fits, and then the argument is read back, labels filled up with missing
ones, and extents as integers of 32 bits keep them. Nothing else of the vector changes, and nothing
at all where the setter fails. -/
theorem attributes_read_as_set (v : Vec Value) :
    (∀ ns, (Setter.names (some ns)).Writes v "names" (ns.length ≤ v.length) fun w =>
      w.names? = some (ns ++ List.replicate (v.length - ns.length) none)) ∧
    (∀ ds, (Setter.dim (some ds)).Writes v "dim" (extentProduct ds = some v.length)
      (·.KeepsExtents ds)) ∧
    (∀ x : Value, x.isNull = false → (Setter.byName "dim" x (by decide)).Writes v "dim"
      (∃ ds, Vec.dimOf x = .ok ds ∧ extentProduct ds = some v.length)
      fun w => ∀ ds, Vec.dimOf x = .ok ds → w.KeepsExtents ds) ∧
    (∀ is as c w, (Setter.byName "dim" (.vector ⟨.integer is, as, c⟩) (by decide)).apply v =
      .ok w → w.dim? = some (is.map (·.toInt.toNat))) ∧
    ∀ ls, (Setter.dimnames ls).Writes v "dimnames" (v.FitExtents ls) fun w =>
      w.dimnames? = some ls :=
  ⟨Setter.writes_names v, Setter.writes_dim v, fun _ => Setter.writes_byName_dim v,
    fun _ _ _ _ => Setter.dim?_of_byName_integer, Setter.writes_dimnames v⟩

def pairOfClass : Vec Value where
  data := .integer [7, 8]
  attributes := some [("class", .vector (.ofStrings [some "pair"]))]
  complete := true

theorem attributes_read_as_set_pair :
    (∃ w x, (Setter.names (some [some "a"])).apply pairOfClass = .ok w ∧
      w.names? = some [some "a", none] ∧
      w.attributes = some [("class", .vector (.ofStrings [some "pair"])), ("names", x)]) ∧
    (∃ w, (Setter.byName "dim" (.vector (.ofData (.integer [2, 1]))) (by decide)).apply
      pairOfClass = .ok w ∧ w.dim? = some [2, 1] ∧ w.KeepsExtents [2, 1] ∧
      w.data = pairOfClass.data) ∧
    (Setter.dimnames [none]).after pairOfClass = pairOfClass := by
  obtain ⟨hnames, -, hdim, hintegers, hdimnames⟩ := attributes_read_as_set pairOfClass
  obtain ⟨w, hw⟩ := (hnames [some "a"]).accepts.2 (by decide)
  obtain ⟨-, ⟨x, hwrote⟩, hread⟩ := (hnames [some "a"]).written w hw
  have hextents := hdim (.vector (.ofData (.integer [2, 1]))) rfl
  obtain ⟨u, hu⟩ := hextents.accepts.2 ⟨[2, 1], by rfl, by decide⟩
  obtain ⟨-, ⟨y, hput⟩, hkeeps⟩ := hextents.written u hu
  exact ⟨⟨w, x, hw, hread, hwrote.last rfl⟩,
    ⟨u, hu, hintegers _ _ _ u hu, hkeeps [2, 1] (by rfl), hput.data⟩,
    (hdimnames [none]).refused _ rfl⟩

/-- An empty vector takes an extent too large to be kept beside one of zero. It reads as zero, too,
and the attribute that was kept would be refused if it were set. -/
theorem extent_beside_zero_is_lost :
    ∃ w x, (Setter.dim (some [0, 2147483648])).apply (.ofData (.integer [])) = .ok w ∧
      w.dim? = some [0, 0] ∧ w.dim? ≠ some [0, 2147483648] ∧
      w.attribute? "dim" = some x ∧ w.setAttribute "dim" x = .error (.index .invalidExtent) := by
  exact ⟨_, _, rfl, rfl, by decide, rfl, by rfl⟩

end LazyVectors
