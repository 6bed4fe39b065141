import LazyVectors.Proofs.CachedPlans
import LazyVectors.Proofs.FirstUses
set_option autoImplicit false

namespace LazyVectors

variable {ω : Type} [Foreign ω]

namespace CacheRequest

variable {A : Type}

def sinceCleared (requests : List (CacheRequest A)) : List A :=
  ((requests.reverse.map access?).takeWhile Option.isSome).filterMap id

@[simp] theorem sinceCleared_snoc_access (requests : List (CacheRequest A)) (a : A) :
    sinceCleared (requests ++ [.access a]) = a :: sinceCleared requests := by
  simp [sinceCleared, access?]

@[simp] theorem sinceCleared_snoc_clear (requests : List (CacheRequest A)) :
    sinceCleared (requests ++ [.clear]) = [] := by
  simp [sinceCleared, access?]

end CacheRequest

def Reading.shape (a : Reading ω) : Shape := .of a.container a.subscripts none a.mode

def Writing.shape (a : Writing ω) : Shape := .of a.container a.subscripts (some a.value) a.mode

theorem Reading.cache_through (c : Extractor) (a : Reading ω) :
    (through c a).2 = (c.fetch a.shape ExtractPlan.build).2 := by
  simp only [through, Extractor.apply, shape]
  rcases c.fetch _ ExtractPlan.build with ⟨e | p, c'⟩ <;> rfl

theorem Writing.cache_through [Memory] (c : Replacer) (a : Writing ω) :
    (through c a).2 = (c.fetch a.shape ReplacePlan.build).2 := by
  simp only [through, Replacer.apply, shape]
  rcases c.fetch _ ReplacePlan.build with ⟨e | p, c'⟩ <;> rfl

namespace PlanCache

variable {P : Type} {build : Shape → Except Failure P} {capacity : Nat} {c : PlanCache P}

def planned (build : Shape → Except Failure P) (shapes : List Shape) : List Shape :=
  shapes.filter fun s => (build s).isOk

theorem planned_cons_of_ok {s : Shape} {p : P} (hs : build s = .ok p) (shapes : List Shape) :
    planned build (s :: shapes) = s :: planned build shapes := by
  simp [planned, hs, Except.isOk, Except.toBool]

theorem planned_cons_of_error {s : Shape} {e : Failure} (hs : build s = .error e)
    (shapes : List Shape) : planned build (s :: shapes) = planned build shapes := by
  simp [planned, hs, Except.isOk, Except.toBool]

/-- A plan for the shape was built before, and since the shape was used last, fewer different
shapes were used for which a plan was found or built than the capacity. -/
def Recent (build : Shape → Except Failure P) (capacity : Nat) (shapes : List Shape) (s : Shape) :
    Prop :=
  (build s).isOk = true ∧
    ∃ since before, shapes = since ++ s :: before ∧ s ∉ since ∧
      (planned build since).eraseDups.length < capacity

/-- What a cache keeps after accesses of some shapes, given with the latest first. -/
structure Tracks (build : Shape → Except Failure P) (capacity : Nat) (shapes : List Shape)
    (c : PlanCache P) : Prop where
  genuine : c.Genuine build
  room : c.capacity = capacity
  kept : c.plans.map Prod.fst = (planned build shapes).eraseDups.take capacity

theorem map_promote (s : Shape) (p : P) (plans : List (Shape × P)) :
    (promote s p plans).map Prod.fst = s :: (plans.map Prod.fst).erase s := by
  simp only [promote, List.map_cons, List.erase_eq_eraseP', List.eraseP_map]
  rfl

theorem capacity_fetch (c : PlanCache P) (s : Shape) (build : Shape → Except Failure P) :
    (c.fetch s build).2.capacity = c.capacity := by
  unfold PlanCache.fetch
  split
  · rfl
  · split <;> rfl

theorem recent_iff {shapes : List Shape} {s : Shape} :
    Recent build capacity shapes s ↔ s ∈ (planned build shapes).eraseDups.take capacity := by
  rw [mem_take_eraseDups]
  constructor
  · rintro ⟨hs, since, before, rfl, hnot, hlt⟩
    refine ⟨planned build since, planned build before, ?_, ?_, hlt⟩
    · simp [planned, List.filter_append, hs]
    · exact fun h => hnot (List.mem_filter.1 h).1
  · rintro ⟨since, before, hsplit, hnot, hlt⟩
    obtain ⟨front, rest, rfl, rfl, hrest⟩ := List.filter_eq_append_iff.1 hsplit
    obtain ⟨refused, before, rfl, hrefused, hs, -⟩ := List.filter_eq_cons_iff.1 hrest
    refine ⟨hs, front ++ refused, before, by simp, fun h => ?_, ?_⟩
    · rcases List.mem_append.1 h with h | h
      · exact hnot (List.mem_filter.2 ⟨h, hs⟩)
      · exact hrefused s h hs
    · have hnone : refused.filter (fun s => (build s).isOk) = [] := by
        simpa [List.filter_eq_nil_iff] using hrefused
      simpa [planned, List.filter_append, hnone] using hlt

namespace Tracks

variable {shapes : List Shape}

theorem ofSize (n : Nat) : Tracks build (max 1 n) [] (PlanCache.ofSize n) :=
  ⟨Genuine.ofSize n, rfl, by simp [PlanCache.ofSize, planned]⟩

theorem clear (hc : Tracks build capacity shapes c) : Tracks build capacity [] c.clear :=
  ⟨Genuine.clear, hc.room, by simp [PlanCache.clear, planned]⟩

theorem found_iff (hc : Tracks build capacity shapes c) (s : Shape) :
    (c.plans.lookup s).isSome = true ↔ Recent build capacity shapes s := by
  rw [Named.isSome_lookup, recent_iff, ← hc.kept]

theorem fetch (hc : Tracks build capacity shapes c) (hpos : 0 < capacity) (s : Shape) :
    Tracks build capacity (s :: shapes) (c.fetch s build).2 := by
  obtain ⟨c', hfetch, hgenuine⟩ := hc.genuine.fetch s
  have hgenuine : (c.fetch s build).2.Genuine build := by rwa [hfetch]
  refine ⟨hgenuine, (capacity_fetch c s build).trans hc.room, ?_⟩
  obtain ⟨n, rfl⟩ : ∃ n, capacity = n + 1 := ⟨_, (Nat.succ_pred (by omega)).symm⟩
  have hused {p : P} (hs : build s = .ok p) :
      (planned build (s :: shapes)).eraseDups.take (n + 1) =
        s :: ((c.plans.map Prod.fst).erase s).take n := by
    rw [planned_cons_of_ok hs, eraseDups_cons_eq_erase, List.take_succ_cons, take_erase, hc.kept]
  rcases hc.genuine.fetch_cases s with ⟨p, hfound, hbuilt, hfetch⟩ | ⟨p, -, hbuilt, hfetch⟩ |
    ⟨e, -, hbuilt, hfetch⟩
  · -- one plan is taken from its place, so there is room for it in front
    have hin : s ∈ c.plans.map Prod.fst := Named.isSome_lookup.1 (by simp [hfound])
    have hlen : ((c.plans.map Prod.fst).erase s).length ≤ n := by
      have hall : (c.plans.map Prod.fst).length ≤ n + 1 := by
        rw [hc.kept]
        exact List.length_take_le ..
      rw [List.length_erase_of_mem hin]
      omega
    rw [hfetch, map_promote, hused hbuilt, List.take_of_length_le hlen]
  · rw [hfetch, hused hbuilt, List.map_take, map_promote, hc.room, List.take_succ_cons]
  · rw [hfetch, planned_cons_of_error hbuilt]
    exact hc.kept

theorem counts_fetch (hc : Tracks build capacity shapes c) (s : Shape) :
    ((c.fetch s build).2.hits = c.hits + 1 ∧ (c.fetch s build).2.misses = c.misses ∧
      Recent build capacity shapes s) ∨
    ((c.fetch s build).2.hits = c.hits ∧ (c.fetch s build).2.misses = c.misses + 1 ∧
      ¬Recent build capacity shapes s) := by
  rw [← hc.found_iff]
  rcases hc.genuine.fetch_cases s with ⟨p, hfound, -, hfetch⟩ | ⟨p, hfound, -, hfetch⟩ |
    ⟨e, hfound, -, hfetch⟩ <;> simp [hfetch, hfound]

theorem fetch_of_error (hc : Tracks build capacity shapes c) {s : Shape} {e : Failure}
    (hs : build s = .error e) :
    c.fetch s build = (.error e, { c with misses := c.misses + 1 }) := by
  rcases hc.genuine.fetch_cases s with ⟨p, -, hbuilt, -⟩ | ⟨p, -, hbuilt, -⟩ |
    ⟨e', -, hbuilt, hfetch⟩
  · cases hs.symm.trans hbuilt
  · cases hs.symm.trans hbuilt
  · cases hs.symm.trans hbuilt
    exact hfetch

theorem head?_fetch (hc : Tracks build capacity shapes c) (hpos : 0 < capacity) {s : Shape} {p : P}
    (hs : build s = .ok p) : (c.fetch s build).2.plans.head? = some (s, p) := by
  have hroom : c.capacity ≠ 0 := by
    rw [hc.room]
    omega
  rcases hc.genuine.fetch_cases s with ⟨q, -, hbuilt, hfetch⟩ | ⟨q, -, hbuilt, hfetch⟩ |
    ⟨e, -, hbuilt, -⟩
  · cases hs.symm.trans hbuilt
    rw [hfetch]
    rfl
  · cases hs.symm.trans hbuilt
    simp [hfetch, promote, List.head?_take, hroom]
  · cases hs.symm.trans hbuilt

end Tracks

/-- What a cache promises that keeps the plans used last, once some requests were served. -/
structure KeepsLatest {A B : Type} (shape : A → Shape) (build : Shape → Except Failure P)
    (through : PlanCache P → A → B × PlanCache P) (capacity : Nat)
    (requests : List (CacheRequest A)) (c : PlanCache P) : Prop where
  bounded : c.size ≤ capacity
  /-- The plans kept, in order, are those of the shapes used last for which there is a plan. -/
  kept : c.plans.map Prod.fst =
    (planned build ((CacheRequest.sinceCleared requests).map shape)).eraseDups.take capacity
  /-- Every access is counted once. -/
  counted : c.hits + c.misses = (requests.filterMap CacheRequest.access?).length
  hit_iff (a : A) : (through c a).2.hits = c.hits + 1 ↔
    Recent build capacity ((CacheRequest.sinceCleared requests).map shape) (shape a)
  miss_iff (a : A) : (through c a).2.misses = c.misses + 1 ↔
    ¬Recent build capacity ((CacheRequest.sinceCleared requests).map shape) (shape a)
  /-- A plan that cannot be built is a miss, and the plans kept stay in their order. -/
  refused (a : A) (e : Failure) (hbuild : build (shape a) = .error e) :
    (through c a).2 = { c with misses := c.misses + 1 }
  /-- An access whose plan is found or built puts it in front, also when the plan then fails. -/
  front (a : A) (p : P) (hbuild : build (shape a) = .ok p) :
    (through c a).2.plans.head? = some (shape a, p)
  /-- What an access comes to makes no difference, only its shape. -/
  alike (a b : A) (hshape : shape a = shape b) : (through c a).2 = (through c b).2

section
variable {A B : Type} {shape : A → Shape} {through : PlanCache P → A → B × PlanCache P}

theorem tracks_after (hthrough : ∀ c a, (through c a).2 = (c.fetch (shape a) build).2)
    (size : Nat) (requests : List (CacheRequest A)) :
    Tracks build (max 1 size) ((CacheRequest.sinceCleared requests).map shape)
      (after through (.ofSize size) requests) := by
  induction requests using List.reverseRecOn with
  | nil => exact Tracks.ofSize size
  | append_singleton requests r ih =>
    rw [after_snoc]
    cases r with
    | clear => simpa [serve] using ih.clear
    | access a => simpa [serve, hthrough] using ih.fetch (by omega) (shape a)

theorem counted_after (hthrough : ∀ c a, (through c a).2 = (c.fetch (shape a) build).2)
    (size : Nat) (requests : List (CacheRequest A)) :
    (after through (.ofSize size) requests).hits + (after through (.ofSize size) requests).misses =
      (requests.filterMap CacheRequest.access?).length := by
  induction requests using List.reverseRecOn with
  | nil => rfl
  | append_singleton requests r ih =>
    rw [after_snoc, List.filterMap_append, List.length_append, ← ih]
    cases r with
    | clear => rfl
    | access a =>
      have hcounts := (tracks_after hthrough size requests).counts_fetch (shape a)
      have hone : ([CacheRequest.access a].filterMap CacheRequest.access?).length = 1 := rfl
      simp only [serve, hthrough, hone]
      omega

theorem keepsLatest_after (hthrough : ∀ c a, (through c a).2 = (c.fetch (shape a) build).2)
    (size : Nat) (requests : List (CacheRequest A)) :
    KeepsLatest shape build through (max 1 size) requests
      (after through (.ofSize size) requests) := by
  have hc := tracks_after hthrough size requests
  exact {
    bounded := by
      have hlen := congrArg List.length hc.kept
      simp only [List.length_map] at hlen
      rw [PlanCache.size, hlen]
      exact List.length_take_le ..
    kept := hc.kept
    counted := counted_after hthrough size requests
    hit_iff a := by
      have hcounts := hc.counts_fetch (shape a)
      rw [hthrough]
      grind
    miss_iff a := by
      have hcounts := hc.counts_fetch (shape a)
      rw [hthrough]
      grind
    refused a e hbuild := by rw [hthrough, hc.fetch_of_error hbuild]
    front a p hbuild := by rw [hthrough, hc.head?_fetch (by omega) hbuild]
    alike a b hshape := by rw [hthrough, hthrough, hshape] }

end

end PlanCache

/-- After any accesses and any clearings, a cache of any size keeps the plans used last and counts
its hits and misses by them. -/
theorem caches_keep_latest_plans [Memory] (size : Nat) :
    (∀ requests : List (CacheRequest (Reading ω)),
      PlanCache.KeepsLatest Reading.shape ExtractPlan.build Reading.through (max 1 size) requests
        (PlanCache.after Reading.through (.ofSize size) requests)) ∧
    ∀ requests : List (CacheRequest (Writing ω)),
      PlanCache.KeepsLatest Writing.shape ReplacePlan.build Writing.through (max 1 size) requests
        (PlanCache.after Writing.through (.ofSize size) requests) :=
  ⟨PlanCache.keepsLatest_after Reading.cache_through size,
    PlanCache.keepsLatest_after Writing.cache_through size⟩

end LazyVectors
