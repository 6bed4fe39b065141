import LazyVectors.Settings
import LazyVectors.Settings.Notation
set_option autoImplicit false

namespace LazyVectors

namespace Settings

inductive Section where
  | engine | logging
  deriving DecidableEq, Repr

namespace Section

def ofName? : String → Option Section
  | "engine" => some engine
  | "logging" => some logging
  | _ => none

def keys : Section → List String
  | engine => ["replace_cache_size", "extract_cache_size", "missing_cache_size"]
  | logging => ["level"]

end Section

/-- How a section was opened: by a header, by keys with a point, or as one value. -/
inductive Opened where
  | byHeader | byKey | whole
  deriving DecidableEq, Repr

structure Draft where
  settings : Settings := {}
  opened : List (Section × Opened) := []
  /-- The keys that were given. -/
  given : List (Section × String) := []
  /-- The section of the last header. -/
  current : Option Section := none

def set? (s : Settings) (sec : Section) (key : String) (x : Literal) : Option Settings :=
  match sec, key, x with
  | .engine, "replace_cache_size", .integer i =>
    if 0 ≤ i then some { s with replaceCacheSize := i.toNat } else none
  | .engine, "extract_cache_size", .integer i =>
    if 0 ≤ i then some { s with extractCacheSize := i.toNat } else none
  | .engine, "missing_cache_size", .integer i =>
    if 0 ≤ i then some { s with missingCacheSize := i.toNat } else none
  | .logging, "level", .text t => some { s with level := t }
  | _, _, _ => none

def setting? (s : Settings) : Section → String → Option Literal
  | .engine, "replace_cache_size" => some (.integer s.replaceCacheSize)
  | .engine, "extract_cache_size" => some (.integer s.extractCacheSize)
  | .engine, "missing_cache_size" => some (.integer s.missingCacheSize)
  | .logging, "level" => some (.text s.level)
  | _, _ => none

/-- What is set is read back, and all other settings stay. -/
theorem setting?_set? {s t : Settings} {sec : Section} {key : String} {x : Literal}
    (h : set? s sec key x = some t) (sec' : Section) (key' : String) :
    t.setting? sec' key' = if sec' = sec ∧ key' = key then some x else s.setting? sec' key' := by
  unfold set? at h
  split at h
  case h_4 =>
    cases h
    unfold setting?
    split <;> split <;> simp_all
  case h_5 => cases h
  all_goals
    split at h
    · rename_i i hi
      cases h
      unfold setting?
      split <;> split <;> simp_all [Int.toNat_of_nonneg hi]
    · cases h

namespace Draft

def give? (d : Draft) (sec : Section) (key : String) (x : Literal) : Option Draft :=
  if d.given.contains (sec, key) then none
  else (set? d.settings sec key x).map fun s =>
    { d with settings := s, given := (sec, key) :: d.given }

def open? (d : Draft) (sec : Section) (how : Opened) : Option Draft :=
  match d.opened.lookup sec with
  | none => some { d with opened := (sec, how) :: d.opened }
  | some before => if before = .byKey ∧ how = .byKey then some d else none

/-- A section given as one value: its entries by key, or its settings in order. -/
def giveWhole? (d : Draft) (sec : Section) : Literal → Option Draft
  | .table entries => entries.foldlM (fun d e =>
      match e.1 with
      | [key] => give? d sec key e.2
      | _ => none) d
  | .list xs => (sec.keys.zip xs).foldlM (fun d e => give? d sec e.1 e.2) d
  | _ => none

def line? (d : Draft) : Line → Option Draft
  | .header [name] => do
    let sec ← Section.ofName? name
    let d ← d.open? sec .byHeader
    return { d with current := some sec }
  | .header _ => none
  | .listHeader _ => none
  | .entry path x =>
    match d.current, path with
    | some sec, [key] => d.give? sec key x
    | none, [name] => do
      let sec ← Section.ofName? name
      let d ← d.open? sec .whole
      d.giveWhole? sec x
    | none, [name, key] => do
      let sec ← Section.ofName? name
      let d ← d.open? sec .byKey
      d.give? sec key x
    | _, _ => none

end Draft

def parse (s : String) : Except Failure Settings :=
  match (Notation.read? s).bind (·.foldlM Draft.line? {}) with
  | some d => d.settings.check
  | none => .error (.settings .unreadable)

namespace Draft

variable {d d' : Draft}

structure Sound (d : Draft) : Prop where
  once : d.given.Nodup
  default : ∀ sec key, (sec, key) ∉ d.given →
    d.settings.setting? sec key = setting? {} sec key

namespace Sound

theorem empty : Sound {} := ⟨List.nodup_nil, fun _ _ _ => rfl⟩

theorem give? (hd : d.Sound) {sec : Section} {key : String} {x : Literal}
    (h : d.give? sec key x = some d') : d'.Sound := by
  unfold Draft.give? at h
  split at h
  · cases h
  · rename_i hnew
    obtain ⟨s, hs, rfl⟩ := Option.map_eq_some_iff.1 h
    have hnew : (sec, key) ∉ d.given := by simpa using hnew
    refine ⟨List.nodup_cons.2 ⟨hnew, hd.once⟩, fun sec' key' hkey => ?_⟩
    rw [List.mem_cons, not_or] at hkey
    rw [setting?_set? hs, if_neg fun hsame => hkey.1 (by rw [hsame.1, hsame.2])]
    exact hd.default sec' key' hkey.2

theorem open? (hd : d.Sound) {sec : Section} {how : Opened} (h : d.open? sec how = some d') :
    d'.Sound := by
  unfold Draft.open? at h
  split at h
  · cases h
    exact ⟨hd.once, hd.default⟩
  · split at h
    · cases h
      exact hd
    · cases h

theorem foldlM {α : Type} {f : Draft → α → Option Draft} {xs : List α}
    (hf : ∀ {d d' : Draft} {x : α}, d.Sound → f d x = some d' → d'.Sound) (hd : d.Sound)
    (h : xs.foldlM f d = some d') : d'.Sound := by
  induction xs generalizing d with
  | nil =>
    cases h
    exact hd
  | cons x xs ih =>
    rw [List.foldlM_cons] at h
    obtain ⟨d₁, hx, h⟩ := Option.bind_eq_some_iff.1 h
    exact ih (hf hd hx) h

theorem giveWhole? (hd : d.Sound) {sec : Section} {x : Literal}
    (h : d.giveWhole? sec x = some d') : d'.Sound := by
  unfold Draft.giveWhole? at h
  split at h
  · refine hd.foldlM (fun {d d' e} hd he => ?_) h
    split at he
    · exact hd.give? he
    · cases he
  · exact hd.foldlM (fun hd he => hd.give? he) h
  · cases h

theorem line? (hd : d.Sound) {l : Line} (h : d.line? l = some d') : d'.Sound := by
  unfold Draft.line? at h
  split at h
  · obtain ⟨sec, -, h⟩ := Option.bind_eq_some_iff.1 h
    obtain ⟨d₁, hopen, h⟩ := Option.bind_eq_some_iff.1 h
    cases h
    exact ⟨(hd.open? hopen).once, (hd.open? hopen).default⟩
  · cases h
  · cases h
  · split at h
    · exact hd.give? h
    · obtain ⟨sec, -, h⟩ := Option.bind_eq_some_iff.1 h
      obtain ⟨d₁, hopen, h⟩ := Option.bind_eq_some_iff.1 h
      exact (hd.open? hopen).giveWhole? h
    · obtain ⟨sec, -, h⟩ := Option.bind_eq_some_iff.1 h
      obtain ⟨d₁, hopen, h⟩ := Option.bind_eq_some_iff.1 h
      exact (hd.open? hopen).give? h
    · cases h

end Sound

end Draft

/-- Settings from a file pass the check, no line gives one of them a second time, and those that no
line gives are as by default. -/
theorem sound_of_parse {text : String} {s : Settings} (h : parse text = .ok s) :
    s.check = .ok s ∧ ∃ ls d, Notation.read? text = some ls ∧
      ls.foldlM Draft.line? {} = some d ∧ d.settings = s ∧ d.Sound := by
  unfold parse at h
  split at h
  · rename_i d hd
    obtain ⟨ls, hls, hd⟩ := Option.bind_eq_some_iff.1 hd
    obtain ⟨rfl, -⟩ := check_eq_ok.1 h
    exact ⟨h, ls, d, hls, hd, rfl, Draft.Sound.empty.foldlM (fun hd h => hd.line? h) hd⟩
  · cases h

end Settings

end LazyVectors
