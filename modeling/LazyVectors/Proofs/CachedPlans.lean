import LazyVectors.Access.PlanCache
/-!
Accesses through a cache of plans. A plan that is kept is the one that would be built for its
shape, whatever was kept, forgotten or could not be built before.
-/

set_option autoImplicit false

namespace LazyVectors

variable {ω : Type} [Foreign ω]

namespace PlanCache

variable {P : Type}

def Genuine (build : Shape → Except Failure P) (c : PlanCache P) : Prop :=
  ∀ s p, (s, p) ∈ c.plans → build s = .ok p

theorem mem_promote {s t : Shape} {p q : P} {plans : List (Shape × P)}
    (h : (t, q) ∈ promote s p plans) : (t = s ∧ q = p) ∨ (t, q) ∈ plans := by
  rcases List.mem_cons.1 h with h | h
  · exact .inl (Prod.mk.inj h)
  · exact .inr (List.mem_of_mem_eraseP h)

namespace Genuine

variable {build : Shape → Except Failure P} {c : PlanCache P}

theorem ofSize (n : Nat) : Genuine build (PlanCache.ofSize n) := by
  intro s p h
  simp [PlanCache.ofSize] at h

theorem clear : Genuine build c.clear := by
  intro s p h
  simp [PlanCache.clear] at h

/-- A fetch finds a plan and puts it in front, or builds one and puts it in front of as many as
there is room for, or builds none and keeps the plans as they are. -/
theorem fetch_cases (hc : c.Genuine build) (s : Shape) :
    (∃ p, c.plans.lookup s = some p ∧ build s = .ok p ∧ c.fetch s build =
      (.ok p, { c with plans := promote s p c.plans, hits := c.hits + 1 })) ∨
    (∃ p, c.plans.lookup s = none ∧ build s = .ok p ∧ c.fetch s build =
      (.ok p,
        { c with plans := (promote s p c.plans).take c.capacity, misses := c.misses + 1 })) ∨
    ∃ e, c.plans.lookup s = none ∧ build s = .error e ∧ c.fetch s build =
      (.error e, { c with misses := c.misses + 1 }) := by
  unfold PlanCache.fetch
  cases hkept : c.plans.lookup s with
  | some p => exact .inl ⟨p, rfl, hc s p (Named.mem_of_lookup hkept), rfl⟩
  | none =>
    cases hbuilt : build s with
    | ok p => exact .inr (.inl ⟨p, rfl, rfl, rfl⟩)
    | error e => exact .inr (.inr ⟨e, rfl, rfl, rfl⟩)

theorem fetch (hc : c.Genuine build) (s : Shape) :
    ∃ c', c.fetch s build = (build s, c') ∧ c'.Genuine build := by
  rcases hc.fetch_cases s with ⟨p, -, hbuilt, hfetch⟩ | ⟨p, -, hbuilt, hfetch⟩ |
    ⟨e, -, hbuilt, hfetch⟩
  · refine ⟨_, by rw [hfetch, hbuilt], fun t q h => ?_⟩
    rcases mem_promote h with ⟨rfl, rfl⟩ | h
    · exact hbuilt
    · exact hc t q h
  · refine ⟨_, by rw [hfetch, hbuilt], fun t q h => ?_⟩
    -- the new plan is put in front before the oldest one falls off
    rcases mem_promote (List.mem_of_mem_take h) with ⟨rfl, rfl⟩ | h
    · exact hbuilt
    · exact hc t q h
  · exact ⟨{ c with misses := c.misses + 1 }, by rw [hfetch, hbuilt], hc⟩

end Genuine

end PlanCache

theorem ExtractPlan.shape_of_build {s : Shape} {p : ExtractPlan} (h : build s = .ok p) :
    p.shape = s := by
  obtain ⟨k, -, rfl⟩ := map_eq_ok.1 h
  rfl

theorem ReplacePlan.shape_of_build {s : Shape} {p : ReplacePlan} (h : build s = .ok p) :
    p.shape = s := by
  obtain ⟨k, -, rfl⟩ := map_eq_ok.1 h
  rfl

theorem Extractor.apply_eq {c : Extractor} (hc : PlanCache.Genuine ExtractPlan.build c)
    (rs : ω) (x : Value) (ss : List Subscript) (mode : Mode) (drop : Bool) :
    ∃ c', Extractor.apply c rs x ss mode drop = (extract rs x ss mode drop, c') ∧
      c'.Genuine ExtractPlan.build := by
  obtain ⟨c', hfetch, hkept⟩ := hc.fetch (.of x ss none mode)
  refine ⟨c', ?_, hkept⟩
  simp only [Extractor.apply, extract, hfetch]
  cases hplan : ExtractPlan.build (.of x ss none mode) with
  | error e => rfl
  | ok p =>
    simp only [ExtractPlan.shape_of_build hplan, if_true]
    rfl

theorem Replacer.apply_eq [Memory] {c : Replacer} (hc : PlanCache.Genuine ReplacePlan.build c)
    (rs : ω) (x : Value) (ss : List Subscript) (value : Value) (mode : Mode) :
    ∃ c', Replacer.apply c rs x ss value mode = (replace rs x ss value mode, c') ∧
      c'.Genuine ReplacePlan.build := by
  obtain ⟨c', hfetch, hkept⟩ := hc.fetch (.of x ss (some value) mode)
  refine ⟨c', ?_, hkept⟩
  simp only [Replacer.apply, replace, hfetch]
  cases hplan : ReplacePlan.build (.of x ss (some value) mode) with
  | error e => rfl
  | ok p =>
    simp only [ReplacePlan.shape_of_build hplan, if_true]
    rfl

/-- What a cache of plans is asked for: an access, or to forget its plans. -/
inductive CacheRequest (A : Type) where
  | access (a : A)
  | clear

namespace CacheRequest

def access? {A : Type} : CacheRequest A → Option A
  | access a => some a
  | clear => none

end CacheRequest

structure Reading (ω : Type) where
  records : ω
  container : Value
  subscripts : List Subscript
  mode : Mode
  drop : Bool

structure Writing (ω : Type) where
  records : ω
  container : Value
  subscripts : List Subscript
  value : Value
  mode : Mode

namespace Reading

def uncached (a : Reading ω) : Except Failure Value :=
  extract a.records a.container a.subscripts a.mode a.drop

def through (c : Extractor) (a : Reading ω) : Except Failure Value × Extractor :=
  Extractor.apply c a.records a.container a.subscripts a.mode a.drop

end Reading

namespace Writing

def uncached [Memory] (a : Writing ω) : Noted (Value × ω) :=
  replace a.records a.container a.subscripts a.value a.mode

def through [Memory] (c : Replacer) (a : Writing ω) : Noted (Value × ω) × Replacer :=
  Replacer.apply c a.records a.container a.subscripts a.value a.mode

end Writing

namespace PlanCache

variable {P A B : Type}

def answers (through : PlanCache P → A → B × PlanCache P) :
    PlanCache P → List (CacheRequest A) → List B
  | _, [] => []
  | c, .clear :: rest => answers through c.clear rest
  | c, .access a :: rest => (through c a).1 :: answers through (through c a).2 rest

def serve (through : PlanCache P → A → B × PlanCache P) (c : PlanCache P) :
    CacheRequest A → PlanCache P
  | .access a => (through c a).2
  | .clear => c.clear

def after (through : PlanCache P → A → B × PlanCache P) (c : PlanCache P)
    (requests : List (CacheRequest A)) : PlanCache P :=
  requests.foldl (serve through) c

theorem after_snoc (through : PlanCache P → A → B × PlanCache P) (c : PlanCache P)
    (requests : List (CacheRequest A)) (r : CacheRequest A) :
    after through c (requests ++ [r]) = serve through (after through c requests) r := by
  simp [after]

theorem answers_eq {build : Shape → Except Failure P}
    {through : PlanCache P → A → B × PlanCache P} {uncached : A → B}
    (hthrough : ∀ c a, Genuine build c → ∃ c', through c a = (uncached a, c') ∧ c'.Genuine build)
    {c : PlanCache P} (hc : c.Genuine build) (requests : List (CacheRequest A)) :
    answers through c requests = (requests.filterMap CacheRequest.access?).map uncached := by
  induction requests generalizing c with
  | nil => rfl
  | cons r rest ih =>
    cases r with
    | clear => exact ih Genuine.clear
    | access a =>
      obtain ⟨c', hanswer, hkept⟩ := hthrough c a hc
      simp [answers, CacheRequest.access?, hanswer, ih hkept]

end PlanCache

/-- However many accesses were made and plans forgotten before, an access through a cache of any
size gives what it gives without one: the same result or failure and the same warnings. -/
theorem cached_accesses_answer_uncached [Memory] (size : Nat) :
    (∀ requests : List (CacheRequest (Reading ω)),
      PlanCache.answers Reading.through (.ofSize size) requests =
        (requests.filterMap CacheRequest.access?).map Reading.uncached) ∧
    ∀ requests : List (CacheRequest (Writing ω)),
      PlanCache.answers Writing.through (.ofSize size) requests =
        (requests.filterMap CacheRequest.access?).map Writing.uncached := by
  refine ⟨fun requests => ?_, fun requests => ?_⟩
  · exact PlanCache.answers_eq (fun c a hc => Extractor.apply_eq hc a.records a.container
      a.subscripts a.mode a.drop) (PlanCache.Genuine.ofSize size) requests
  · exact PlanCache.answers_eq (fun c a hc => Replacer.apply_eq hc a.records a.container
      a.subscripts a.value a.mode) (PlanCache.Genuine.ofSize size) requests

end LazyVectors
