import LazyVectors.Proofs.Shaped
/-!
Setters of attributes, one after the other. Each looks only at the attribute that it writes,
while what fits as `dimnames` depends on `dim`: labels along the extents outlive the extents for
which they were checked when `dim` is written anew or removed as an attribute.
-/

set_option autoImplicit false

namespace LazyVectors

/-- What is read back of an extent, which is kept as an integer of 32 bits. -/
def keptExtent (d : Nat) : Nat := (Int32.ofNat d).toInt.toNat

theorem keptExtent_eq (d : Nat) :
    keptExtent d = if d % 4294967296 < extentBound then d % 4294967296 else 0 := by
  have hbmod : (Int32.ofNat d).toInt = Int.bmod d 4294967296 := Int32.toInt_ofNat'
  unfold keptExtent extentBound
  rw [hbmod, Int.bmod_def]
  split <;> split <;> omega

theorem keptExtent_le (d : Nat) : keptExtent d ≤ d := by
  rw [keptExtent_eq]
  split
  · exact Nat.mod_le _ _
  · exact Nat.zero_le _

theorem keptExtent_eq_iff {d : Nat} : keptExtent d = d ↔ d < extentBound := by
  rw [keptExtent_eq]
  unfold extentBound
  split <;> omega

theorem map_keptExtent_eq_iff {ds : List Nat} :
    ds.map keptExtent = ds ↔ ∀ d ∈ ds, d < extentBound := by
  induction ds with
  | nil => simp
  | cons d ds ih =>
    rw [List.map_cons, List.cons.injEq, ih, keptExtent_eq_iff, List.forall_mem_cons]

theorem volume_map_keptExtent_le (ds : List Nat) : volume (ds.map keptExtent) ≤ volume ds := by
  induction ds with
  | nil => exact Nat.le_refl _
  | cons d ds ih => exact Nat.mul_le_mul (keptExtent_le d) ih

theorem volume_map_keptExtent_iff (ds : List Nat) :
    volume (ds.map keptExtent) = volume ds ↔ volume ds = 0 ∨ ∀ d ∈ ds, d < extentBound := by
  induction ds with
  | nil => simp
  | cons d ds ih =>
    have hd := keptExtent_le d
    have hds := volume_map_keptExtent_le ds
    rw [List.map_cons, volume_cons, volume_cons]
    by_cases hzero : d * volume ds = 0
    · have hle := Nat.mul_le_mul hd hds
      simp only [hzero, true_or, iff_true]
      omega
    obtain ⟨hdpos, hpos⟩ := Nat.mul_ne_zero_iff.1 hzero
    simp only [hzero, hpos, false_or, List.forall_mem_cons] at ih ⊢
    rw [← ih, ← keptExtent_eq_iff]
    refine ⟨fun h => ?_, fun h => by rw [h.1, h.2]⟩
    rcases Nat.lt_or_eq_of_le hd with hlt | heq
    · have := Nat.mul_lt_mul_of_lt_of_le hlt hds (Nat.pos_of_ne_zero hpos)
      omega
    · exact ⟨heq, Nat.eq_of_mul_eq_mul_left (Nat.pos_of_ne_zero hdpos) (by rwa [heq] at h)⟩

theorem volume_eq_zero_or_small {ds : List Nat} (h : volume ds < extentBound) :
    volume ds = 0 ∨ ∀ d ∈ ds, d < extentBound := by
  induction ds with
  | nil => simp
  | cons d ds ih =>
    rw [volume_cons] at h ⊢
    by_cases hzero : d * volume ds = 0
    · exact .inl hzero
    obtain ⟨hdpos, hpos⟩ := Nat.mul_ne_zero_iff.1 hzero
    have hd := Nat.le_mul_of_pos_right d (Nat.pos_of_ne_zero hpos)
    have hds := Nat.le_mul_of_pos_left (volume ds) (Nat.pos_of_ne_zero hdpos)
    have hrest := (ih (by omega)).resolve_left hpos
    exact .inr (List.forall_mem_cons.2 ⟨by omega, hrest⟩)

namespace Vec

variable {v w : Vec Value}

theorem dim?_of_kept {ds : List Nat} (h : v.attribute? "dim" =
      some (.vector (.ofData (.integer (ds.map Int32.ofNat))))) :
    v.dim? = some (ds.map keptExtent) := by
  unfold dim?
  rw [h]
  exact congrArg some List.map_map

def LabelsFit (v : Vec Value) : Prop :=
  ∀ x, v.attribute? "names" = some x → ∃ ns, extentNames? x = some ns ∧ ns.length = v.length

def ExtentsFit (v : Vec Value) : Prop :=
  ∀ x, v.attribute? "dim" = some x → ∃ ds, v.dim? = some ds ∧ volume ds = v.length

def ExtentLabelsFit (v : Vec Value) : Prop :=
  ∀ x, v.attribute? "dimnames" = some x → ∃ ds xs as c, v.dim? = some ds ∧
    x = .vector ⟨.list xs, as, c⟩ ∧ List.Forall₂ Labels ds xs

structure AttributesFit (v : Vec Value) : Prop where
  names : v.LabelsFit
  dim : v.ExtentsFit
  dimnames : v.ExtentLabelsFit

theorem LabelsFit.congr (hv : v.LabelsFit) (hnames : w.attribute? "names" = v.attribute? "names")
    (hlen : w.length = v.length) : w.LabelsFit := by
  unfold LabelsFit
  rw [hnames, hlen]
  exact hv

theorem ExtentsFit.congr (hv : v.ExtentsFit) (hdim : w.attribute? "dim" = v.attribute? "dim")
    (hlen : w.length = v.length) : w.ExtentsFit := by
  unfold ExtentsFit
  rw [hdim, hlen, dim?_congr hdim]
  exact hv

theorem ExtentsFit.of_none (h : v.attribute? "dim" = none) : v.ExtentsFit :=
  fun _ hx => nomatch h.symm.trans hx

theorem ExtentLabelsFit.congr (hv : v.ExtentLabelsFit)
    (hdim : w.attribute? "dim" = v.attribute? "dim")
    (hdimnames : w.attribute? "dimnames" = v.attribute? "dimnames") : w.ExtentLabelsFit := by
  unfold ExtentLabelsFit
  rw [hdimnames, dim?_congr hdim]
  exact hv

theorem ExtentLabelsFit.of_none (h : v.attribute? "dimnames" = none) : v.ExtentLabelsFit :=
  fun _ hx => nomatch h.symm.trans hx

/-- Extents may be put in place of those there are, or taken away, if they can be kept and the
labels along extents fit them. Extents that do not have the length of the vector are refused. -/
def Admits (v : Vec Value) : Option (List Nat) → Prop
  | none => v.attribute? "dimnames" = none
  | some ds => extentProduct ds = some v.length →
    (v.length = 0 ∨ ∀ d ∈ ds, d < extentBound) ∧
    ∀ xs as c, v.attribute? "dimnames" = some (.vector ⟨.list xs, as, c⟩) →
      List.Forall₂ Labels (ds.map keptExtent) xs

structure ChangesOnly (v w : Vec Value) (name : String) : Prop where
  length : w.length = v.length
  unique : v.Unique → w.Unique
  same : ∀ other, other ≠ name → w.attribute? other = v.attribute? other

theorem changesOnly_putAttribute (v : Vec Value) (name : String) {x : Value}
    (hx : x.isNull = false) : v.ChangesOnly (v.putAttribute name x) name where
  length := rfl
  unique hv := hv.putAttribute
  same other hother := by rw [attribute?_putAttribute v name other x hx, if_neg hother]

theorem changesOnly_removeAttribute (v : Vec Value) (name : String) :
    v.ChangesOnly (v.removeAttribute name) name where
  length := congrArg Data.length (data_removeAttribute v name)
  unique hv := hv.removeAttribute name
  same _ hother := attribute?_removeAttribute_of_ne v hother

end Vec

/-- A call that writes or removes an attribute. Labels along extents have no other setter than
their own. -/
inductive Setter where
  | names (ns : Option (List (Option String)))
  | dim (ds : Option (List Nat))
  | dimnames (ls : List (Option (List (Option String))))
  | classes (cs : List String)
  | byName (name : String) (x : Value) (h : name ≠ "dimnames")

namespace Setter

def apply (v : Vec Value) : Setter → Except Failure (Vec Value)
  | names none => .ok (v.removeAttribute "names")
  | names (some ns) => v.setNames ns
  | dim none => .ok v.clearDim
  | dim (some ds) => v.setDim ds
  | dimnames ls => v.setDimnames ls
  | classes cs => .ok (v.setClass cs)
  | byName name x _ => v.setAttribute name x

def after (v : Vec Value) (s : Setter) : Vec Value :=
  match s.apply v with
  | .ok w => w
  | .error _ => v

def run (v : Vec Value) (ss : List Setter) : Vec Value := ss.foldl after v

def extents? : Setter → Option (Option (List Nat))
  | dim (some ds) => some (some ds)
  | byName name x _ =>
    if name = "dim" then
      if x.isNull then some none
      else
        match Vec.dimOf x with
        | .ok ds => some (some ds)
        | .error _ => none
    else none
  | _ => none

/-- A call leaves no labels along extents behind that do not fit. -/
def Careful (v : Vec Value) (s : Setter) : Prop := ∀ e, s.extents? = some e → v.Admits e

def AllCareful (v : Vec Value) : List Setter → Prop
  | [] => True
  | s :: ss => s.Careful v ∧ AllCareful (s.after v) ss

inductive Change (v w : Vec Value) : Option (Option (List Nat)) → Prop where
  | names (hw : v.ChangesOnly w "names") (h : w.LabelsFit) : Change v w none
  | dim {ds : List Nat} (hw : v.ChangesOnly w "dim") (h : extentProduct ds = some v.length)
    (hdim : w.attribute? "dim" = some (.vector (.ofData (.integer (ds.map Int32.ofNat))))) :
    Change v w (some (some ds))
  | noDim (hw : v.ChangesOnly w "dim") (hdim : w.attribute? "dim" = none) :
    Change v w (some none)
  | dimnames (hw : v.ChangesOnly w "dimnames") (h : w.ExtentLabelsFit) : Change v w none
  | cleared (hlen : w.length = v.length) (hunique : v.Unique → w.Unique)
    (hnames : w.attribute? "names" = v.attribute? "names") (hdim : w.attribute? "dim" = none)
    (hdimnames : w.attribute? "dimnames" = none) :
    Change v w none
  | other {name : String} (hw : v.ChangesOnly w name) (h : name ∉ ["names", "dim", "dimnames"]) :
    Change v w none

variable {v w : Vec Value} {e : Option (Option (List Nat))} {s : Setter}

theorem change_of_setNames {ns : List (Option String)} (h : v.setNames ns = .ok w) :
    Change v w none := by
  obtain ⟨hle, rfl⟩ := Vec.setNames_eq_ok.1 h
  refine .names (Vec.changesOnly_putAttribute v _ rfl) fun x hx => ?_
  rw [Vec.attribute?_putAttribute_self _ _ rfl] at hx
  cases hx
  refine ⟨_, rfl, ?_⟩
  rw [List.length_append, List.length_replicate]
  exact Nat.add_sub_cancel' hle

theorem setDim_eq_ok {ds : List Nat} :
    v.setDim ds = .ok w ↔ extentProduct ds = some v.length ∧
      w = v.putAttribute "dim" (.vector (.ofData (.integer (ds.map Int32.ofNat)))) := by
  unfold Vec.setDim
  cases extentProduct ds with
  | none => simp
  | some p =>
    by_cases hp : p = v.length
    · simp [hp, eq_comm]
    · simp [hp]

theorem change_of_setDim {ds : List Nat} (h : v.setDim ds = .ok w) :
    Change v w (some (some ds)) := by
  obtain ⟨hproduct, rfl⟩ := setDim_eq_ok.1 h
  exact .dim (Vec.changesOnly_putAttribute v _ rfl) hproduct
    (Vec.attribute?_putAttribute_self v _ rfl)

theorem change_of_setDimnames {ls : List (Option (List (Option String)))}
    (h : v.setDimnames ls = .ok w) : Change v w none := by
  unfold Vec.setDimnames at h
  split at h
  · cases h
  rename_i ds hds
  split at h
  · cases h
  rename_i hlen
  obtain ⟨xs, hxs, h⟩ := bind_eq_ok.1 h
  cases h
  have hw := Vec.changesOnly_putAttribute v "dimnames" (x := .vector (.ofList xs)) rfl
  refine .dimnames hw fun x hx => ?_
  rw [Vec.attribute?_putAttribute_self _ _ rfl] at hx
  cases hx
  refine ⟨ds, xs, _, _, ?_, rfl,
    Vec.Shaped.labels_of_extentLabels (Classical.not_not.1 hlen) hxs⟩
  rw [Vec.dim?_congr (hw.same _ (by decide)), hds]

theorem change_of_removeAttribute (hu : v.Unique) {name : String}
    (hdim : name ≠ "dim") (hdimnames : name ≠ "dimnames") :
    Change v (v.removeAttribute name) none := by
  by_cases hnames : name = "names"
  · subst hnames
    refine .names (Vec.changesOnly_removeAttribute v _) fun x hx => ?_
    rw [Vec.attribute?_removeAttribute_self hu] at hx
    cases hx
  · exact .other (Vec.changesOnly_removeAttribute v name) (by simp [hnames, hdim, hdimnames])

theorem change_of_setAttribute (hu : v.Unique) {name : String} {x : Value}
    (hname : name ≠ "dimnames") (h : v.setAttribute name x = .ok w) :
    Change v w (extents? (byName name x hname)) := by
  unfold Vec.setAttribute at h
  unfold extents?
  -- a removal first, then each name that has a setter of its own
  split at h
  · rename_i hnull
    cases h
    by_cases hdim : name = "dim"
    · subst hdim
      simpa [hnull] using Change.noDim (Vec.changesOnly_removeAttribute v "dim")
        (Vec.attribute?_removeAttribute_self hu "dim")
    · simpa [hdim] using change_of_removeAttribute hu hdim hname
  rename_i hnull
  split at h
  · rename_i hnames
    obtain ⟨ns, -, h⟩ := bind_eq_ok.1 h
    simpa [hnames] using change_of_setNames h
  rename_i hnames
  split at h
  · rename_i hdim
    obtain ⟨ds, hds, h⟩ := bind_eq_ok.1 h
    simpa [hdim, hnull, hds] using change_of_setDim h
  · rename_i hdim
    cases h
    have hw := Vec.changesOnly_putAttribute v name (x := x) (by simpa using hnull)
    simpa [hdim] using Change.other hw (by simp [hnames, hdim, hname])

theorem change_of_apply (hu : v.Unique) (h : s.apply v = .ok w) : Change v w s.extents? := by
  cases s with
  | names ns =>
    cases ns with
    | none =>
      cases h
      exact change_of_removeAttribute hu (by decide) (by decide)
    | some ns => exact change_of_setNames h
  | dim ds =>
    cases ds with
    | none =>
      cases h
      obtain ⟨hdim, hdimnames, hnames⟩ := Vec.attribute?_clearDim hu
      exact .cleared (congrArg Data.length (Vec.data_clearDim v)) Vec.Unique.clearDim hnames hdim
        hdimnames
    | some ds => exact change_of_setDim h
  | dimnames ls => exact change_of_setDimnames h
  | classes cs =>
    cases h
    exact .other (Vec.changesOnly_putAttribute v "class" rfl) (by decide)
  | byName name x hname => exact change_of_setAttribute hu hname h

theorem careful_of_error {f : Failure} (h : s.apply v = .error f) : s.Careful v := by
  have hrefused : ∀ {ds}, v.setDim ds = .error f → v.Admits (some ds) := fun hds hproduct => by
    rw [setDim_eq_ok.2 ⟨hproduct, rfl⟩] at hds
    cases hds
  intro e he
  cases s with
  | dim ds =>
    cases ds with
    | none => cases h
    | some ds =>
      cases he
      exact hrefused h
  | byName name x hname =>
    simp only [apply, Vec.setAttribute] at h
    simp only [extents?] at he
    split at h
    · cases h
    rename_i hnull
    split at he
    · subst name
      cases hds : Vec.dimOf x with
      | error f' => simp [hds] at he
      | ok ds =>
        obtain rfl : some ds = e := by simpa [hds] using he
        exact hrefused (by simpa [hds, bind, Except.bind] using h)
    · cases he
  | _ => cases he

namespace Change

theorem length (h : Change v w e) : w.length = v.length := by
  cases h with
  | cleared hlen => exact hlen
  | names hw | dim hw | noDim hw | dimnames hw | other hw => exact hw.length

theorem unique (h : Change v w e) (hv : v.Unique) : w.Unique := by
  cases h with
  | cleared _ hunique => exact hunique hv
  | names hw | dim hw | noDim hw | dimnames hw | other hw => exact hw.unique hv

theorem labelsFit (h : Change v w e) (hv : v.LabelsFit) : w.LabelsFit := by
  have hlen := h.length
  cases h with
  | names _ hnames => exact hnames
  | cleared _ _ hnames => exact hv.congr hnames hlen
  | other hw hname => exact hv.congr (hw.same _ fun h => hname (by simp [← h])) hlen
  | dim hw | noDim hw | dimnames hw => exact hv.congr (hw.same _ (by decide)) hlen

theorem extentsFit_iff {ds : List Nat} (hdim : w.attribute? "dim" =
      some (.vector (.ofData (.integer (ds.map Int32.ofNat)))))
    (hds : extentProduct ds = some w.length) :
    w.ExtentsFit ↔ w.length = 0 ∨ ∀ d ∈ ds, d < extentBound := by
  have hvolume : volume ds = w.length := extentProduct_eq_some hds
  have hread : w.dim? = some (ds.map keptExtent) := Vec.dim?_of_kept hdim
  rw [← hvolume, ← volume_map_keptExtent_iff]
  constructor
  · intro hw
    obtain ⟨es, hes, hproduct⟩ := hw _ hdim
    rw [hread] at hes
    cases hes
    exact hproduct.trans hvolume.symm
  · intro hkept x _
    exact ⟨_, hread, hkept.trans hvolume⟩

theorem extentsFit (h : Change v w e) (hshort : v.length < extentBound) (hv : v.ExtentsFit) :
    w.ExtentsFit := by
  have hlen := h.length
  cases h with
  | noDim _ hdim | cleared _ _ _ hdim => exact .of_none hdim
  | other hw hname => exact hv.congr (hw.same _ fun h => hname (by simp [← h])) hlen
  | names hw | dimnames hw => exact hv.congr (hw.same _ (by decide)) hlen
  | dim _ hds hdim =>
    rw [← hlen] at hds hshort
    refine (extentsFit_iff hdim hds).2 ?_
    rw [← extentProduct_eq_some hds] at hshort ⊢
    exact volume_eq_zero_or_small hshort

/-- Where the labels along extents stay, those that fit the new extents are those that may stay. -/
theorem extentLabelsFit_iff {ds : List Nat} (hv : v.ExtentLabelsFit)
    (hread : w.dim? = some (ds.map keptExtent))
    (hdimnames : w.attribute? "dimnames" = v.attribute? "dimnames") :
    w.ExtentLabelsFit ↔ ∀ xs as c, v.attribute? "dimnames" = some (.vector ⟨.list xs, as, c⟩) →
      List.Forall₂ Vec.Labels (ds.map keptExtent) xs := by
  constructor
  · intro hfit xs as c hxs
    obtain ⟨es, ys, as', c', hes, hys, hlabels⟩ := hfit _ (hdimnames.trans hxs)
    rw [hread] at hes
    cases hes
    cases hys
    exact hlabels
  · intro hlabels x hx
    obtain ⟨-, xs, as, c, -, rfl, -⟩ := hv x (hdimnames.symm.trans hx)
    exact ⟨_, xs, as, c, hread, rfl, hlabels xs as c (hdimnames.symm.trans hx)⟩

theorem attributesFit_iff (h : Change v w e) (hv : v.AttributesFit) :
    w.AttributesFit ↔ ∀ e', e = some e' → v.Admits e' := by
  have hnames := h.labelsFit hv.names
  have hlen := h.length
  -- only new extents can leave labels along them that do not fit
  cases h with
  | names hw =>
    have hdim := hw.same "dim" (by decide)
    exact iff_of_true ⟨hnames, hv.dim.congr hdim hlen,
      hv.dimnames.congr hdim (hw.same _ (by decide))⟩ (by simp)
  | dimnames hw h =>
    exact iff_of_true ⟨hnames, hv.dim.congr (hw.same _ (by decide)) hlen, h⟩ (by simp)
  | other hw hname =>
    have hdim := hw.same "dim" fun h => hname (by simp [← h])
    have hdimnames := hw.same "dimnames" fun h => hname (by simp [← h])
    exact iff_of_true ⟨hnames, hv.dim.congr hdim hlen, hv.dimnames.congr hdim hdimnames⟩ (by simp)
  | cleared _ _ _ hdim hdimnames =>
    exact iff_of_true ⟨hnames, .of_none hdim, .of_none hdimnames⟩ (by simp)
  | noDim hw hdim =>
    have hdimnames := hw.same "dimnames" (by decide)
    simp only [Option.some.injEq, forall_eq', Vec.Admits]
    rw [← hdimnames]
    refine ⟨fun hfit => ?_, fun h => ⟨hnames, .of_none hdim, .of_none h⟩⟩
    cases hx : w.attribute? "dimnames" with
    | none => rfl
    | some x =>
      obtain ⟨ds, -, -, -, hds, -⟩ := hfit.dimnames x hx
      simp [Vec.dim?, hdim] at hds
  | @dim ds hw hds hdim =>
    have hdimnames := hw.same "dimnames" (by decide)
    have hread : w.dim? = some (ds.map keptExtent) := Vec.dim?_of_kept hdim
    simp only [Option.some.injEq, forall_eq', Vec.Admits, hds, true_implies]
    rw [← hlen] at hds ⊢
    rw [← extentsFit_iff hdim hds, ← extentLabelsFit_iff hv.dimnames hread hdimnames]
    exact ⟨fun hfit => ⟨hfit.dim, hfit.dimnames⟩, fun ⟨hdim, hlabels⟩ => ⟨hnames, hdim, hlabels⟩⟩

end Change

theorem after_cases (hu : v.Unique) (s : Setter) :
    (s.after v = v ∧ s.Careful v) ∨ Change v (s.after v) s.extents? := by
  unfold after
  cases h : s.apply v with
  | error f => exact .inl ⟨rfl, careful_of_error h⟩
  | ok w => exact .inr (change_of_apply hu h)

theorem unique_after (hu : v.Unique) (s : Setter) : (s.after v).Unique := by
  rcases after_cases hu s with ⟨h, -⟩ | h
  · rwa [h]
  · exact h.unique hu

theorem labelsFit_after (hu : v.Unique) (hv : v.LabelsFit) (s : Setter) :
    (s.after v).LabelsFit := by
  rcases after_cases hu s with ⟨h, -⟩ | h
  · rwa [h]
  · exact h.labelsFit hv

theorem length_after (hu : v.Unique) (s : Setter) : (s.after v).length = v.length := by
  rcases after_cases hu s with ⟨h, -⟩ | h
  · rw [h]
  · exact h.length

theorem extentsFit_after (hu : v.Unique) (hshort : v.length < extentBound) (hv : v.ExtentsFit)
    (s : Setter) : (s.after v).ExtentsFit := by
  rcases after_cases hu s with ⟨h, -⟩ | h
  · rwa [h]
  · exact h.extentsFit hshort hv

/-- Attributes that fit still fit after a call exactly when the call is careful. -/
theorem attributesFit_after_iff (hu : v.Unique) (hv : v.AttributesFit) (s : Setter) :
    (s.after v).AttributesFit ↔ s.Careful v := by
  rcases after_cases hu s with ⟨h, hcareful⟩ | h
  · rw [h]
    exact iff_of_true hv hcareful
  · exact h.attributesFit_iff hv

theorem labelsFit_run (hu : v.Unique) (hv : v.LabelsFit) (ss : List Setter) :
    (run v ss).LabelsFit := by
  induction ss generalizing v with
  | nil => exact hv
  | cons s ss ih => exact ih (unique_after hu s) (labelsFit_after hu hv s)

theorem extentsFit_run (hu : v.Unique) (hshort : v.length < extentBound) (hv : v.ExtentsFit)
    (ss : List Setter) : (run v ss).ExtentsFit := by
  induction ss generalizing v with
  | nil => exact hv
  | cons s ss ih =>
    exact ih (unique_after hu s) (length_after hu s ▸ hshort) (extentsFit_after hu hshort hv s)

theorem attributesFit_run_iff (hu : v.Unique) (hv : v.AttributesFit) (ss : List Setter) :
    (∀ k, (run v (ss.take k)).AttributesFit) ↔ AllCareful v ss := by
  induction ss generalizing v with
  | nil => simpa [run, AllCareful] using hv
  | cons s ss ih =>
    have hstep := attributesFit_after_iff hu hv s
    constructor
    · intro hall
      have hfirst : (s.after v).AttributesFit := hall 1
      exact ⟨hstep.1 hfirst, (ih (unique_after hu s) hfirst).1 fun k => hall (k + 1)⟩
    · rintro ⟨hfirst, hrest⟩ k
      cases k with
      | zero => exact hv
      | succ k => exact (ih (unique_after hu s) (hstep.2 hfirst)).2 hrest k

end Setter

theorem Vec.attributesFit_ofData (d : Data Value) : (Vec.ofData d).AttributesFit :=
  ⟨fun _ h => (nomatch h), .of_none rfl, .of_none rfl⟩

/-- After any calls of setters on a new vector its labels fit its length, and its extents do if no
extent of that length can be too large to be kept. Extents and the labels along them fit all the
time exactly when no call puts other extents, or none, in place of those that labels were given
for. -/
theorem setters_keep_attributes_consistent (d : Data Value) (ss : List Setter) :
    (Setter.run (.ofData d) ss).LabelsFit ∧
    (d.length < extentBound → (Setter.run (.ofData d) ss).ExtentsFit) ∧
    ((∀ k, (Setter.run (.ofData d) (ss.take k)).AttributesFit) ↔
      Setter.AllCareful (.ofData d) ss) := by
  have hu : (Vec.ofData d).Unique := List.nodup_nil
  have hv := Vec.attributesFit_ofData d
  exact ⟨Setter.labelsFit_run hu hv.names ss, fun hd => Setter.extentsFit_run hu hd hv.dim ss,
    Setter.attributesFit_run_iff hu hv ss⟩

def labelledAndFlattened (flatten : Setter) : List Setter :=
  [.dim (some [2, 2]), .dimnames [some [some "a", some "b"], none], flatten]

theorem setters_keep_attributes_consistent_cleared :
    Setter.AllCareful (.ofData (.integer [1, 2, 3, 4])) (labelledAndFlattened (.dim none)) ∧
    (Setter.run (.ofData (.integer [1, 2, 3, 4]))
      (labelledAndFlattened (.dim none))).AttributesFit := by
  have hcareful : Setter.AllCareful (.ofData (.integer [1, 2, 3, 4]))
      (labelledAndFlattened (.dim none)) := by
    refine ⟨fun e he => ?_, fun e he => (nomatch he), fun e he => (nomatch he), trivial⟩
    cases he
    exact fun _ => ⟨.inr (by decide), fun _ _ _ h => (nomatch h)⟩
  exact ⟨hcareful, (setters_keep_attributes_consistent _ _).2.2.2 hcareful 3⟩

/-- Removing `dim` as an attribute leaves the labels behind. -/
theorem dimnames_outlive_dim :
    (Setter.run (.ofData (.integer [1, 2, 3, 4]))
      (labelledAndFlattened (.byName "dim" .null (by decide)))).attribute? "dim" = none ∧
    (Setter.run (.ofData (.integer [1, 2, 3, 4]))
      (labelledAndFlattened (.byName "dim" .null (by decide)))).dimnames? =
        some [some [some "a", some "b"], none] ∧
    ¬(Setter.run (.ofData (.integer [1, 2, 3, 4]))
      (labelledAndFlattened (.byName "dim" .null (by decide)))).AttributesFit := by
  refine ⟨rfl, rfl, fun h => ?_⟩
  obtain ⟨ds, -, -, -, hds, -⟩ := h.dimnames _ rfl
  cases hds

end LazyVectors
