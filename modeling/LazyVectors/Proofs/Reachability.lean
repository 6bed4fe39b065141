import Mathlib.Logic.Relation
import Mathlib.Data.List.Basic
import LazyVectors.Heap
/-!
What is reached from the things in use. The search goes round by round and leaves aside what it
saw before; as many rounds as there are frames and promises are enough, since a round that goes
on has come to one of them for the first time.
-/

set_option autoImplicit false

namespace LazyVectors.Heap

variable {h : Heap} {target x y : Handle} {seen front sources : List Handle} {n : Nat}

def Path (h : Heap) : Handle → Handle → Prop :=
  Relation.ReflTransGen fun x y => y ∈ h.successors x

theorem mem_handles (hy : y ∈ h.successors x) : x ∈ h.handles := by
  unfold handles
  cases x with
  | frame f =>
    cases hf : h.frames[f]? with
    | none => simp [successors, hf] at hy
    | some fr =>
      have hlt : f < h.frames.size := (Array.getElem?_eq_some_iff.1 hf).1
      simp [hlt]
  | promise p =>
    cases hp : h.promises[p]? with
    | none => simp [successors, hp] at hy
    | some r =>
      have hlt : p < h.promises.size := (Array.getElem?_eq_some_iff.1 hp).1
      simp [hlt]
  | function f =>
    cases hf : h.functions[f]? with
    | none => simp [successors, hf] at hy
    | some r =>
      have hlt : f < h.functions.size := (Array.getElem?_eq_some_iff.1 hf).1
      simp [hlt]

def beyond (h : Heap) (seen front : List Handle) : List Handle :=
  ((front.flatMap h.successors).filter (!(front ++ seen).contains ·)).eraseDups

theorem mem_beyond : y ∈ h.beyond seen front ↔
    (∃ x ∈ front, y ∈ h.successors x) ∧ y ∉ front ∧ y ∉ seen := by
  simp [beyond, List.mem_eraseDups]

theorem reaches_succ (h : Heap) (target : Handle) (n : Nat) (seen front : List Handle) :
    h.reaches target (n + 1) seen front = (decide (target ∈ front) ||
      h.reaches target n (front ++ seen) (h.beyond seen front)) := by
  rw [reaches]
  by_cases hfront : target ∈ front
  · simp [hfront]
  · have hcontains : front.contains target = false := by simpa using hfront
    simp only [hcontains, hfront, decide_false, Bool.false_eq_true, if_false, Bool.false_or]
    change (if (h.beyond seen front).isEmpty then false
      else h.reaches target n (front ++ seen) (h.beyond seen front)) = _
    split
    · rename_i hempty
      have hnothing : ∀ m seen, h.reaches target m seen [] = false := by
        intro m seen
        cases m <;> simp [reaches]
      rw [List.isEmpty_iff.1 hempty, hnothing]
    · rfl

theorem path_of_reaches (hr : h.reaches target n seen front = true) :
    ∃ x ∈ front, h.Path x target := by
  induction n generalizing seen front with
  | zero => cases hr
  | succ n ih =>
    rw [reaches_succ, Bool.or_eq_true, decide_eq_true_eq] at hr
    rcases hr with htarget | hr
    · exact ⟨target, htarget, .refl⟩
    · obtain ⟨y, hy, hpath⟩ := ih hr
      obtain ⟨⟨x, hx, hxy⟩, -⟩ := mem_beyond.1 hy
      exact ⟨x, hx, hpath.head hxy⟩

/-- What was seen leads nowhere but to what was seen and to the front, and the target is not among
it. -/
structure Searched (h : Heap) (target : Handle) (seen front : List Handle) : Prop where
  closed : ∀ x ∈ seen, ∀ y ∈ h.successors x, y ∈ seen ∨ y ∈ front
  fresh : ∀ x ∈ front, x ∉ seen
  target : target ∉ seen

namespace Searched

theorem cross (hs : h.Searched target seen front) (hpath : h.Path x target) (hx : x ∈ seen) :
    ∃ z ∈ front, h.Path z target := by
  induction hpath using Relation.ReflTransGen.head_induction_on with
  | refl => exact absurd hx hs.target
  | head hxy hpath ih =>
    rcases hs.closed _ hx _ hxy with hseen | hfront
    · exact ih hseen
    · exact ⟨_, hfront, hpath⟩

theorem next (hs : h.Searched target seen front) (htarget : target ∉ front) :
    h.Searched target (front ++ seen) (h.beyond seen front) where
  closed x hx y hxy := by
    by_cases hy : y ∈ front ++ seen
    · exact .inl hy
    rw [List.mem_append, not_or] at hy
    rcases List.mem_append.1 hx with hx | hx
    · exact .inr (mem_beyond.2 ⟨⟨x, hx, hxy⟩, hy⟩)
    · exact absurd (hs.closed x hx y hxy) (by simp [hy])
  fresh y hy := by simpa using (mem_beyond.1 hy).2
  target := by simp [htarget, hs.target]

end Searched

/-- How much there is to be seen yet. -/
def unseen (h : Heap) (seen : List Handle) : Nat :=
  (h.handles.filter fun x => decide (x ∉ seen)).length

theorem unseen_lt (hx : x ∈ h.handles) (hfront : x ∈ front) (hfresh : x ∉ seen) :
    h.unseen (front ++ seen) < h.unseen seen := by
  have hsublist : (h.handles.filter fun x => decide (x ∉ front ++ seen)).Sublist
      (h.handles.filter fun x => decide (x ∉ seen)) :=
    List.monotone_filter_right _ fun y hy => by simp_all
  refine Nat.lt_of_le_of_ne hsublist.length_le fun heq => ?_
  have hmem : x ∈ h.handles.filter fun x => decide (x ∉ seen) := by simp [hx, hfresh]
  rw [← hsublist.eq_of_length heq] at hmem
  simp [hfront] at hmem

theorem reaches_of_path (hs : h.Searched target seen front) (hn : h.unseen seen < n)
    (hpath : ∃ x ∈ front, h.Path x target) : h.reaches target n seen front = true := by
  induction n generalizing seen front with
  | zero => omega
  | succ n ih =>
    rw [reaches_succ, Bool.or_eq_true, decide_eq_true_eq]
    by_cases htarget : target ∈ front
    · exact .inl htarget
    obtain ⟨x, hx, hpath⟩ := hpath
    -- the path starts at what has been seen by then, so it crosses the next front
    have hcross := (hs.next htarget).cross hpath (List.mem_append_left _ hx)
    rcases hpath.cases_head with rfl | ⟨y, hxy, -⟩
    · exact absurd hx htarget
    have hless := unseen_lt (mem_handles hxy) hx (hs.fresh x hx)
    exact .inr (ih (hs.next htarget) (by omega) hcross)

/-- The search finds the target exactly when there is a path to it. -/
theorem leadsTo_iff : h.leadsTo sources target = true ↔ ∃ x ∈ sources, h.Path x target := by
  refine ⟨path_of_reaches, reaches_of_path ⟨by simp, by simp, by simp⟩ ?_⟩
  have hall : h.unseen [] ≤ h.handles.length := List.length_filter_le _ _
  have hcount : h.handles.length = h.frames.size + h.promises.size + h.functions.size := by
    simp [handles, Nat.add_assoc]
  omega

theorem leadsTo_of_mem (hx : x ∈ sources) : h.leadsTo sources x = true :=
  leadsTo_iff.2 ⟨x, hx, .refl⟩

theorem leadsTo_step (hx : h.leadsTo sources x = true) (hy : y ∈ h.successors x) :
    h.leadsTo sources y = true := by
  obtain ⟨z, hz, hpath⟩ := leadsTo_iff.1 hx
  exact leadsTo_iff.2 ⟨z, hz, hpath.tail hy⟩

theorem alive_of_leadsTo {f : FrameId} (hf : h.leadsTo sources (.frame f) = true) :
    h.alive sources f = true := by
  simp [alive, hf]

theorem alive_mono {sources' : List Handle} {f : FrameId} (hf : h.alive sources f = true)
    (hsub : sources ⊆ sources') : h.alive sources' f = true := by
  rw [alive, Bool.or_eq_true] at hf ⊢
  refine hf.imp_left fun hf => ?_
  obtain ⟨x, hx, hpath⟩ := leadsTo_iff.1 hf
  exact leadsTo_iff.2 ⟨x, hsub hx, hpath⟩

/-- In the place of a promise that is held one may hold what it leads to. -/
theorem alive_promise_cons (h : Heap) (p : PromiseId) (sources : List Handle) (f : FrameId) :
    h.alive (.promise p :: sources) f = h.alive (h.successors (.promise p) ++ sources) f := by
  have hleads : h.leadsTo (.promise p :: sources) (.frame f) =
      h.leadsTo (h.successors (.promise p) ++ sources) (.frame f) := by
    rw [Bool.eq_iff_iff, leadsTo_iff, leadsTo_iff]
    constructor
    · rintro ⟨x, hx, hpath⟩
      rcases List.mem_cons.1 hx with rfl | hx
      · rcases hpath.cases_head with hsame | ⟨y, hy, hpath⟩
        · cases hsame
        · exact ⟨y, List.mem_append_left _ hy, hpath⟩
      · exact ⟨x, List.mem_append_right _ hx, hpath⟩
    · rintro ⟨x, hx, hpath⟩
      rcases List.mem_append.1 hx with hx | hx
      · exact ⟨_, List.mem_cons_self, hpath.head hx⟩
      · exact ⟨x, List.mem_cons_of_mem _ hx, hpath⟩
  rw [alive, alive, hleads]

variable {h' : Heap}

theorem reaches_congr (hsuccessors : h'.successors = h.successors) (target : Handle) (n : Nat)
    (seen front : List Handle) :
    h'.reaches target n seen front = h.reaches target n seen front := by
  induction n generalizing seen front with
  | zero => rfl
  | succ n ih => simp only [reaches, hsuccessors, ih]

theorem alive_congr (hframes : h'.frames.size = h.frames.size)
    (hpromises : h'.promises.size = h.promises.size)
    (hfunctions : h'.functions.size = h.functions.size)
    (hsuccessors : h'.successors = h.successors) :
    h'.alive = h.alive := by
  have hleads : h'.leadsTo = h.leadsTo := by
    funext sources target
    rw [leadsTo, leadsTo, reaches_congr hsuccessors, hframes, hpromises, hfunctions]
  funext roots f
  simp only [alive, rings, handles, hleads, hsuccessors, hframes, hpromises, hfunctions]

theorem successors_setState (h : Heap) (p : PromiseId) (s : PromiseState) :
    (h.setState p s).successors = h.successors := by
  funext x
  cases x with
  | frame f => rfl
  | promise q =>
    simp only [successors, setState, Array.getElem?_modify]
    split
    · rw [Option.map_map]
      rfl
    · rfl
  | function f => rfl

@[simp] theorem alive_setState (h : Heap) (p : PromiseId) (s : PromiseState) :
    (h.setState p s).alive = h.alive :=
  alive_congr rfl (by simp [setState]) rfl (successors_setState h p s)

end LazyVectors.Heap
