import LazyVectors.Proofs.FirstUses
import LazyVectors.Proofs.Walks
/-!
Checkers. Asking a checker gives the answer of a walk without one, and leaves a tree that
depends only on the names that were asked for one behind the other: at every place the first
different names asked for there, as far as there is room.
-/

set_option autoImplicit false

namespace LazyVectors

namespace Heap

/-- The names that a walk asks for, one behind the other. -/
def trail (roots : List Handle) : Nat → Heap → String → FrameId → Nat → List String
  | 0, _, _, _, _ => []
  | n + 1, h, name, frame, level =>
    name ::
      match h.verdict roots name frame level with
      | .settled _ => []
      | .forwarded next f mark => trail roots n (h.marked mark) next f (level + 1)

end Heap

namespace Checker

def limit : Checker → Nat
  | node _ limit _ => limit

def entries : Checker → List (String × Checker)
  | node _ _ entries => entries

def at? : Checker → List String → Option Checker
  | c, [] => some c
  | c, name :: path => (c.entries.lookup name).bind (at? · path)

def record : Checker → List String → Checker
  | c, [] => c
  | c, name :: rest =>
    match c.child? name with
    | none => c
    | some child => c.withChild name (child.record rest)

/-- What is left of some names behind a name that they begin with. -/
def behind (name : String) : List String → Option (List String)
  | [] => none
  | first :: rest => if first = name then some rest else none

def nextName : List String → List String → Option String
  | [], names => names.head?
  | name :: path, names => (behind name names).bind (nextName path)

/-- What a checker is that began empty and was asked for some trails of names. -/
structure Remembers (level limit : Nat) (trails : List (List String)) (c : Checker) : Prop where
  level_eq : c.level = level
  limit_eq : c.limit = limit
  names_eq : c.names = ((trails.filterMap List.head?).eraseDups).take limit
  child_eq : ∀ name child, c.entries.lookup name = some child →
    child = (trails.filterMap (behind name)).foldl record (node (level + 1) limit [])

section Recording

variable {level limit : Nat} {trails : List (List String)} {entries : List (String × Checker)}
  {first : String} {rest : List String}

theorem filterMap_behind_of_ne {name : String} (h : name ≠ first) :
    (trails ++ [first :: rest]).filterMap (behind name) = trails.filterMap (behind name) := by
  simp [List.filterMap_append, behind, h.symm]

theorem filterMap_behind_self : (trails ++ [first :: rest]).filterMap (behind first) =
    trails.filterMap (behind first) ++ [rest] := by
  simp [List.filterMap_append, behind]

theorem filterMap_behind_of_notMem (h : first ∉ trails.filterMap List.head?) :
    trails.filterMap (behind first) = [] := by
  refine List.filterMap_eq_nil_iff.2 fun t ht => ?_
  cases t with
  | nil => rfl
  | cons a t =>
    have hne : a ≠ first := fun ha => h (List.mem_filterMap.2 ⟨_, ht, by simp [ha]⟩)
    simp [behind, hne]

theorem Remembers.mem_of_known (hc : (node level limit entries).Remembers level limit trails)
    (h : first ∈ Named.names entries) : first ∈ trails.filterMap List.head? := by
  have hnames : Named.names entries = _ := hc.names_eq
  rw [hnames] at h
  exact List.mem_eraseDups.1 (List.mem_of_mem_take h)

theorem Remembers.put (hc : (node level limit entries).Remembers level limit trails)
    {child : Checker}
    (hnames : Named.names (Named.put entries first child) =
      ((trails.filterMap List.head? ++ [first]).eraseDups).take limit)
    (hchild : child = (trails.filterMap (behind first) ++ [rest]).foldl Checker.record
      (node (level + 1) limit [])) :
    ((node level limit entries).withChild first child).Remembers level limit
      (trails ++ [first :: rest]) := by
  refine ⟨rfl, rfl, ?_, fun name c h => ?_⟩
  · rw [List.filterMap_append]
    exact hnames
  simp only [withChild, Checker.entries, Named.lookup_put] at h
  split at h
  · subst name
    cases h
    rw [filterMap_behind_self]
    exact hchild
  · rename_i hne
    rw [filterMap_behind_of_ne hne]
    exact hc.child_eq name c h

theorem Remembers.full (hc : (node level limit entries).Remembers level limit trails)
    (hnew : entries.lookup first = none) (hfull : limit ≤ entries.length) :
    (node level limit entries).Remembers level limit (trails ++ [first :: rest]) := by
  have hnames : Named.names entries = _ := hc.names_eq
  have hlen : limit ≤ ((trails.filterMap List.head?).eraseDups).length := by
    have hle : limit ≤ (Named.names entries).length := by simpa [Named.names] using hfull
    rw [hnames, List.length_take] at hle
    omega
  refine ⟨rfl, rfl, ?_, fun name c h => ?_⟩
  · have hheads : (trails ++ [first :: rest]).filterMap List.head? =
        trails.filterMap List.head? ++ [first] := by simp
    change Named.names entries = _
    rw [hnames, hheads]
    by_cases hfirst : first ∈ trails.filterMap List.head?
    · rw [eraseDups_snoc_of_mem hfirst]
    · rw [eraseDups_snoc_of_notMem hfirst, List.take_append_of_le_length hlen]
  · have hne : name ≠ first := by
      rintro rfl
      simp [Checker.entries, hnew] at h
    rw [filterMap_behind_of_ne hne]
    exact hc.child_eq name c h

theorem Remembers.record {c : Checker} (hc : c.Remembers level limit trails)
    (trail : List String) : (c.record trail).Remembers level limit (trails ++ [trail]) := by
  -- an empty trail asks for no name; any other asks for its first name here and for the rest behind
  -- it
  cases trail with
  | nil =>
    refine ⟨hc.level_eq, hc.limit_eq, ?_, fun name child h => ?_⟩
    · simpa [List.filterMap_cons, Checker.record] using hc.names_eq
    · simpa [List.filterMap_cons, behind] using hc.child_eq name child h
  | cons first rest =>
    obtain ⟨l, k, entries⟩ := c
    obtain rfl : l = level := hc.level_eq
    obtain rfl : k = limit := hc.limit_eq
    have hnames : Named.names entries = _ := hc.names_eq
    simp only [Checker.record, child?]
    cases hknown : entries.lookup first with
    | some old =>
      have hin : first ∈ Named.names entries := Named.isSome_lookup.1 (by simp [hknown])
      refine hc.put ?_ ?_
      · rw [Named.names_put, if_pos hin, eraseDups_snoc_of_mem (hc.mem_of_known hin), hnames]
      · rw [hc.child_eq first old hknown, List.foldl_append]
        rfl
    | none =>
      by_cases hroom : entries.length < k
      · have hnotin : first ∉ Named.names entries := fun hin => by
          simpa [hknown] using Named.isSome_lookup.2 hin
        have hlen : (Named.names entries).length < k := by simpa [Named.names] using hroom
        have hall : Named.names entries = (trails.filterMap List.head?).eraseDups := by
          rw [hnames, List.length_take] at hlen
          rw [hnames, List.take_of_length_le (by omega)]
        have hfirst : first ∉ trails.filterMap List.head? := by
          rwa [hall, List.mem_eraseDups] at hnotin
        simp only [hroom, if_true]
        refine hc.put ?_ ?_
        · rw [Named.names_put, if_neg hnotin, eraseDups_snoc_of_notMem hfirst, ← hall,
            List.take_of_length_le (by simpa using Nat.succ_le_of_lt hlen)]
        · rw [filterMap_behind_of_notMem hfirst]
          rfl
      · simp only [hroom, if_false]
        exact hc.full hknown (Nat.le_of_not_lt hroom)

end Recording

theorem remembers_foldl (level limit : Nat) (trails : List (List String)) :
    (trails.foldl record (node level limit [])).Remembers level limit trails := by
  induction trails using List.reverseRecOn with
  | nil => exact ⟨rfl, rfl, by simp [names, Named.names], fun name child h => by cases h⟩
  | append_singleton trails trail ih =>
    rw [List.foldl_append]
    exact ih.record trail

theorem level_foldl (limit : Nat) (trails : List (List String)) :
    (trails.foldl record (ofLimit limit)).level = 0 :=
  (remembers_foldl 0 limit trails).level_eq

theorem remembers_at {level limit : Nat} {trails : List (List String)} {path : List String}
    {c : Checker} (hc : (trails.foldl record (node level limit [])).at? path = some c) :
    c.level = level + path.length ∧
      c.names = ((trails.filterMap (nextName path)).eraseDups).take limit := by
  induction path generalizing level trails with
  | nil =>
    cases hc
    have hroot := remembers_foldl level limit trails
    exact ⟨hroot.level_eq, hroot.names_eq⟩
  | cons name path ih =>
    obtain ⟨child, hchild, hrest⟩ := Option.bind_eq_some_iff.1 hc
    rw [(remembers_foldl level limit trails).child_eq name child hchild] at hrest
    obtain ⟨hlevel, hnames⟩ := ih hrest
    rw [List.filterMap_filterMap] at hnames
    refine ⟨?_, hnames⟩
    rw [hlevel, List.length_cons]
    omega

def Leveled (c : Checker) : Prop :=
  ∀ path c', c.at? path = some c' → c'.level = c.level + path.length

theorem Leveled.child {c child : Checker} {name : String} (hc : c.Leveled)
    (hchild : c.child? name = some child) : child.level = c.level + 1 ∧ child.Leveled := by
  obtain ⟨level, limit, entries⟩ := c
  unfold child? at hchild
  cases hknown : entries.lookup name with
  | some old =>
    obtain rfl : old = child := by simpa [hknown] using hchild
    have hlevel : old.level = level + 1 := hc [name] old (by simp [at?, Checker.entries, hknown])
    refine ⟨hlevel, fun path c' hc' => ?_⟩
    have hdeep : c'.level = level + (path.length + 1) :=
      hc (name :: path) c' (by simpa [at?, Checker.entries, hknown] using hc')
    rw [hdeep, hlevel]
    omega
  | none =>
    simp only [hknown] at hchild
    split at hchild
    · cases hchild
      refine ⟨rfl, fun path c' hc' => ?_⟩
      cases path with
      | nil =>
        cases hc'
        rfl
      | cons a path => cases hc'
    · cases hchild

theorem leveled_foldl (limit : Nat) (trails : List (List String)) :
    (trails.foldl record (ofLimit limit)).Leveled := by
  intro path c hc
  rw [level_foldl]
  exact (remembers_at hc).1

theorem walk_heap {roots : List Handle} {n : Nat} {c c' : Checker} {h h' : Heap} {name : String}
    {frame : FrameId} {b : Bool} (hw : c.walk roots n h name frame = some ((b, c'), h')) :
    h' = h := by
  induction n generalizing c c' h h' name frame b with
  | zero => cases hw
  | succ n ih =>
    unfold walk at hw
    split at hw
    · obtain ⟨r, hr, heq⟩ := Option.map_eq_some_iff.1 hw
      cases heq
      exact Heap.walk_heap hr
    · split at hw
      · cases hw
        rfl
      · rw [Heap.guarded_eq _ _ _ fun a h' ha => ih ha] at hw
        obtain ⟨r, hr, heq⟩ := Option.map_eq_some_iff.1 hw
        obtain ⟨x, -, rfl⟩ := Option.map_eq_some_iff.1 hr
        exact (congrArg Prod.snd heq).symm

/-- A checker answers as a walk from its level does, and keeps a record of the names asked for. -/
theorem walk_eq (roots : List Handle) (n : Nat) {c : Checker} (hc : c.Leveled) (h : Heap)
    (name : String) (frame : FrameId) :
    c.walk roots n h name frame = (Heap.walk roots n h name frame c.level).map fun r =>
      ((r.1, c.record (h.trail roots n name frame c.level)), h) := by
  -- the walks go side by side as long as there is a checker for the name
  induction n generalizing c h name frame with
  | zero => rfl
  | succ n ih =>
    rw [walk]
    cases hchild : c.child? name with
    | none =>
      cases hw : Heap.walk roots (n + 1) h name frame c.level with
      | none => rfl
      | some r =>
        obtain ⟨b, h'⟩ := r
        simp [Heap.trail, record, hchild, Heap.walk_heap hw]
    | some child =>
      obtain ⟨hlevel, hleveled⟩ := hc.child hchild
      simp only [Heap.walk_succ, Heap.trail, record, hchild]
      cases h.verdict roots name frame c.level with
      | settled b => rfl
      | forwarded next f mark =>
        have hnext := ih hleveled (h.marked mark) next f
        simp only []
        rw [Heap.guarded_eq]
        · rw [hnext, hlevel]
          simp only [Option.map_map]
          rfl
        · intro a h' ha
          rw [hnext] at ha
          obtain ⟨r, -, hr⟩ := Option.map_eq_some_iff.1 ha
          exact (congrArg Prod.snd hr).symm

end Checker

structure Query where
  heap : Heap
  roots : List Handle
  name : String
  frame : FrameId

namespace Query

/-- The names that the question leads to, one behind the other. -/
def trail (q : Query) : List String :=
  q.heap.trail q.roots q.heap.walkBound q.name q.frame 0

end Query

namespace Checker

def askAll : Checker → List Query → Option Checker
  | c, [] => some c
  | c, q :: qs => (c.isMissing? q.heap q.roots q.name q.frame).bind fun r => r.1.2.askAll qs

theorem askAll_eq {limit : Nat} (trails : List (List String)) {c : Checker} {qs : List Query}
    (h : (trails.foldl record (ofLimit limit)).askAll qs = some c) :
    c = (trails ++ qs.map Query.trail).foldl record (ofLimit limit) := by
  induction qs generalizing trails with
  | nil => simpa [askAll] using h.symm
  | cons q qs ih =>
    obtain ⟨r, hr, hrest⟩ := Option.bind_eq_some_iff.1 h
    rw [isMissing?, walk_eq _ _ (leveled_foldl limit trails), level_foldl] at hr
    obtain ⟨a, -, rfl⟩ := Option.map_eq_some_iff.1 hr
    have hnext : ((trails ++ [q.trail]).foldl record (ofLimit limit)).askAll qs = some c := by
      rwa [List.foldl_append]
    simpa using ih _ hnext

end Checker

/-- Whatever a checker was asked before, it answers every question that has an answer as a walk
without it does. Behind each path of names it remembers the first different names asked for
there, in that order and no more of them than its limit. -/
theorem checker_agrees_and_remembers (limit : Nat) (qs : List Query) {c : Checker}
    (hc : (Checker.ofLimit limit).askAll qs = some c) :
    (∀ (h : Heap) (roots : List Handle) (name : String) (frame : FrameId) (b : Bool),
      (∃ n h', Heap.walk roots n h name frame 0 = some (b, h')) ↔
        ∃ c' h', c.isMissing? h roots name frame = some ((b, c'), h')) ∧
    ∀ (path : List String) (c' : Checker), c.at? path = some c' →
      c'.level = path.length ∧ c'.names.length ≤ limit ∧ c'.names.Nodup ∧
      c'.names = ((qs.filterMap fun q => Checker.nextName path q.trail).eraseDups).take limit := by
  obtain rfl : c = (qs.map Query.trail).foldl Checker.record (Checker.ofLimit limit) :=
    Checker.askAll_eq [] hc
  refine ⟨fun h roots name frame b => ?_, fun path c' hc' => ?_⟩
  · rw [Checker.isMissing?, Checker.walk_eq _ _ (Checker.leveled_foldl limit _),
      Checker.level_foldl]
    constructor
    · rintro ⟨n, h', hw⟩
      rw [Heap.walk_within_bound hw]
      exact ⟨_, _, rfl⟩
    · rintro ⟨c', h', hw⟩
      obtain ⟨r, hr, heq⟩ := Option.map_eq_some_iff.1 hw
      cases heq
      exact ⟨_, r.2, hr⟩
  · obtain ⟨hlevel, hnames⟩ := Checker.remembers_at hc'
    rw [List.filterMap_map] at hnames
    have hlength : c'.names.length ≤ limit := by
      rw [hnames, List.length_take]
      exact Nat.min_le_left _ _
    have hnodup : c'.names.Nodup := by
      rw [hnames]
      exact (nodup_eraseDups _).sublist (List.take_sublist _ _)
    exact ⟨by omega, hlength, hnodup, hnames⟩

def handedOn : Heap where
  frames := #[⟨.top 0, none, []⟩, ⟨.labelled "g", some 0, [("x", .missing)]⟩,
    ⟨.labelled "h", some 0, [("y", .promise 0), ("z", .value .null)]⟩]
  promises := #[.argument (.lookup "x") 1]

theorem checker_agrees_and_remembers_handedOn :
    ∃ c, (Checker.ofLimit 1).askAll
        [⟨handedOn, [.frame 2], "y", 2⟩, ⟨handedOn, [.frame 2], "z", 2⟩] = some c ∧
      (∃ c' h', c.isMissing? handedOn [.frame 2] "y" 2 = some ((true, c'), h')) ∧
      (∃ c' h', c.isMissing? handedOn [.frame 2] "z" 2 = some ((false, c'), h')) ∧
      c.names = ["y"] ∧ ∃ c', c.at? ["y"] = some c' ∧ c'.names = ["x"] := by
  refine ⟨_, rfl, ?_⟩
  obtain ⟨hanswers, hnames⟩ := checker_agrees_and_remembers 1
    [⟨handedOn, [.frame 2], "y", 2⟩, ⟨handedOn, [.frame 2], "z", 2⟩] rfl
  refine ⟨(hanswers _ _ _ _ _).1 ⟨2, _, rfl⟩, (hanswers _ _ _ _ _).1 ⟨1, _, rfl⟩, ?_, _, rfl, ?_⟩
  · exact (hnames [] _ rfl).2.2.2
  · exact (hnames ["y"] _ rfl).2.2.2

end LazyVectors
