import LazyVectors.Proofs.Checkers
import LazyVectors.Proofs.Reachability
/-!
What a question for a missing argument looks at. It leaves the heap as it found it, and of the
expressions of promises it sees only which are bare names and what they hold.
-/

set_option autoImplicit false

namespace LazyVectors

namespace Heap

/-- The heap with other expressions in its promises. -/
def mapExprs (f : Expr → Expr) (h : Heap) : Heap :=
  { h with promises := h.promises.map fun r => { r with expr := f r.expr } }

variable (f : Expr → Expr) {h : Heap}

@[simp] theorem frames_mapExprs (h : Heap) : (h.mapExprs f).frames = h.frames := rfl

@[simp] theorem size_promises_mapExprs (h : Heap) :
    (h.mapExprs f).promises.size = h.promises.size := by
  simp [mapExprs]

theorem getElem?_mapExprs (h : Heap) (p : PromiseId) :
    (h.mapExprs f).promises[p]? = h.promises[p]?.map fun r => { r with expr := f r.expr } :=
  Array.getElem?_map

theorem successors_mapExprs (hf : ∀ e, (f e).handles = e.handles) (h : Heap) :
    (h.mapExprs f).successors = h.successors := by
  have hpromise : ∀ r : Promise, Promise.handles { r with expr := f r.expr } = r.handles := by
    intro r
    simp only [Promise.handles, hf]
  funext x
  cases x with
  | frame g => rfl
  | promise p =>
    simp only [successors, getElem?_mapExprs, Option.map_map]
    congr 2
    exact funext hpromise
  | function g => rfl

theorem alive_mapExprs (hf : ∀ e, (f e).handles = e.handles) (h : Heap) :
    (h.mapExprs f).alive = h.alive :=
  alive_congr rfl (size_promises_mapExprs f h) rfl (successors_mapExprs f hf h)

theorem marked_mapExprs (h : Heap) (mark : Option PromiseId) :
    (h.mapExprs f).marked mark = (h.marked mark).mapExprs f := by
  cases mark with
  | none => rfl
  | some p =>
    refine promises_ext rfl rfl fun q => ?_
    simp only [marked, getElem?_setState, getElem?_mapExprs]
    split
    · simp only [Option.map_map]
      rfl
    · rfl

variable {f} (hf : ∀ e, (f e).name? = e.name? ∧ (f e).handles = e.handles)

include hf in
theorem verdict_mapExprs (h : Heap) (roots : List Handle)
    (name : String) (frame : FrameId) (level : Nat) :
    (h.mapExprs f).verdict roots name frame level = h.verdict roots name frame level := by
  have hpromise : ∀ (p : PromiseId) (r : Promise),
      (h.mapExprs f).promiseVerdict roots frame level p { r with expr := f r.expr } =
        h.promiseVerdict roots frame level p r := by
    intro p r
    simp only [promiseVerdict, (hf _).1, frameOf?, alive_mapExprs f fun e => (hf e).2, origin?,
      frames_mapExprs]
    rfl
  unfold verdict
  rw [local?_congr (frames_mapExprs f h)]
  split
  · rfl
  · rfl
  · rfl
  · rename_i p _
    rw [getElem?_mapExprs]
    cases h.promises[p]? with
    | none => rfl
    | some r => exact hpromise p r

include hf in
theorem walk_mapExprs (roots : List Handle) (n : Nat) (h : Heap)
    (name : String) (frame : FrameId) (level : Nat) :
    walk roots n (h.mapExprs f) name frame level =
      (walk roots n h name frame level).map fun r => (r.1, h.mapExprs f) := by
  induction n generalizing h name frame level with
  | zero => rfl
  | succ n ih =>
    rw [walk_succ, walk_succ, verdict_mapExprs hf]
    cases h.verdict roots name frame level with
    | settled b => rfl
    | forwarded next g mark =>
      simp only [marked_mapExprs, ih, Option.map_map]
      rfl

end Heap

namespace Checker

variable {roots : List Handle} {n : Nat} {c child : Checker} {h : Heap} {name : String}
  {frame : FrameId}

theorem walk_of_no_child (hchild : c.child? name = none) : c.walk roots (n + 1) h name frame =
    (Heap.walk roots (n + 1) h name frame c.level).map fun r => ((r.1, c), h) := by
  rw [walk, hchild]
  cases hw : Heap.walk roots (n + 1) h name frame c.level with
  | none => rfl
  | some r => simp [Heap.walk_heap hw]

theorem walk_of_settled (hchild : c.child? name = some child) {b : Bool}
    (hv : h.verdict roots name frame c.level = .settled b) :
    c.walk roots (n + 1) h name frame = some ((b, c.withChild name child), h) := by
  simp only [walk, hchild, hv]

theorem walk_of_forwarded (hchild : c.child? name = some child) {next : String} {g : FrameId}
    {mark : Option PromiseId} (hv : h.verdict roots name frame c.level = .forwarded next g mark) :
    c.walk roots (n + 1) h name frame = (child.walk roots n (h.marked mark) next g).map fun r =>
      ((r.1.1, c.withChild name r.1.2), h) := by
  have hguarded := Heap.guarded_eq h mark (fun h => child.walk roots n h next g)
    fun ⟨_, _⟩ _ ha => walk_heap ha
  simp only [walk, hchild, hv, hguarded, Option.map_map]
  rfl

theorem walk_mapExprs {f : Expr → Expr}
    (hf : ∀ e, (f e).name? = e.name? ∧ (f e).handles = e.handles) (roots : List Handle) (n : Nat)
    (c : Checker) (h : Heap) (name : String) (frame : FrameId) :
    c.walk roots n (h.mapExprs f) name frame =
      (c.walk roots n h name frame).map fun r => (r.1, h.mapExprs f) := by
  induction n generalizing c h name frame with
  | zero => rfl
  | succ n ih =>
    cases hchild : c.child? name with
    | none =>
      rw [walk_of_no_child hchild, walk_of_no_child hchild, Heap.walk_mapExprs hf]
      simp only [Option.map_map]
      rfl
    | some child =>
      have hverdict := Heap.verdict_mapExprs hf h roots name frame c.level
      cases hv : h.verdict roots name frame c.level with
      | settled b =>
        rw [hv] at hverdict
        rw [walk_of_settled hchild hverdict, walk_of_settled hchild hv]
        rfl
      | forwarded next g mark =>
        rw [hv] at hverdict
        rw [walk_of_forwarded hchild hverdict, walk_of_forwarded hchild hv, Heap.marked_mapExprs,
          ih]
        simp only [Option.map_map]
        rfl

end Checker

/-- A question for a missing argument, put to a heap or to any checker and followed through any
number of frames, leaves every frame and every promise of the heap as it was, in whatever state
the promise may be. It evaluates nothing: with any other expressions in the place of those that
are no bare names, which lead to the same, it has the same answer and leaves the same checker. -/
theorem missing_question_leaves_heap (h : Heap) (roots : List Handle) (name : String)
    (frame : FrameId) (n : Nat) :
    (∀ (level : Nat) (b : Bool) (h' : Heap),
      Heap.walk roots n h name frame level = some (b, h') → h' = h) ∧
    (∀ (c c' : Checker) (b : Bool) (h' : Heap),
      c.walk roots n h name frame = some ((b, c'), h') → h' = h) ∧
    ∀ f : Expr → Expr, (∀ e, (f e).name? = e.name? ∧ (f e).handles = e.handles) →
      (∀ level, Heap.walk roots n (h.mapExprs f) name frame level =
        (Heap.walk roots n h name frame level).map fun r => (r.1, h.mapExprs f)) ∧
      ∀ c : Checker, c.walk roots n (h.mapExprs f) name frame =
        (c.walk roots n h name frame).map fun r => (r.1, h.mapExprs f) :=
  ⟨fun _ _ _ hw => Heap.walk_heap hw, fun _ _ _ _ hw => Checker.walk_heap hw, fun _ hf =>
    ⟨fun level => Heap.walk_mapExprs hf roots n h name frame level,
      fun c => Checker.walk_mapExprs hf roots n c h name frame⟩⟩

def handedInCircle : Heap where
  frames := #[⟨.top 0, none, []⟩,
    ⟨.call 0, some 0, [("x", .promise 0), ("y", .promise 2)]⟩,
    ⟨.call 0, some 0, [("x", .promise 1)]⟩]
  promises := #[⟨.lookup "x", some 2, false, .evaluated, some .null, false⟩,
    .argument (.lookup "x") 1, .argument (.call (.lookup "stop") []) 1]

/-- Both promises are marked until the walk is back at the first. -/
theorem missing_question_leaves_heap_inCircle :
    (∃ h', Heap.walk [.frame 1, .frame 2] 3 handedInCircle "x" 1 0 = some (true, h') ∧
      h' = handedInCircle) ∧
    (∃ c' h', (Checker.ofLimit 1).walk [.frame 1, .frame 2] 3 handedInCircle "x" 1 =
      some ((true, c'), h') ∧ h' = handedInCircle) ∧
    ∃ f : Expr → Expr, f (.call (.lookup "stop") []) = .constant .null ∧
      Heap.walk [.frame 1, .frame 2] 3 (handedInCircle.mapExprs f) "y" 1 0 =
        some (false, handedInCircle.mapExprs f) := by
  obtain ⟨hplain, hchecker, -⟩ :=
    missing_question_leaves_heap handedInCircle [.frame 1, .frame 2] "x" 1 3
  obtain ⟨-, -, hblind⟩ := missing_question_leaves_heap handedInCircle [.frame 1, .frame 2] "y" 1 3
  have hwalk : Heap.walk [.frame 1, .frame 2] 3 handedInCircle "x" 1 0 =
      some (true, handedInCircle) := rfl
  obtain ⟨c', h', hasked⟩ : ∃ c' h', (Checker.ofLimit 1).walk [.frame 1, .frame 2] 3
      handedInCircle "x" 1 = some ((true, c'), h') := ⟨_, _, rfl⟩
  refine ⟨⟨_, hwalk, hplain _ _ _ hwalk⟩, ⟨c', h', hasked, hchecker _ _ _ _ hasked⟩, ?_⟩
  -- only what holds nothing may be exchanged for the constant
  refine ⟨fun e => if e.handles = [] then e.name?.elim (.constant .null) .lookup else e, rfl, ?_⟩
  refine (hblind _ fun e => ?_).1 0
  split
  · rename_i hnone
    rw [hnone]
    cases e <;> exact ⟨rfl, rfl⟩
  · exact ⟨rfl, rfl⟩

end LazyVectors
