import LazyVectors.Decimal
import LazyVectors.Noted
set_option autoImplicit false

namespace LazyVectors

inductive LogLevel where
  | error | warn | info | debug | trace
  deriving DecidableEq, Repr

namespace LogLevel

def name : LogLevel → String
  | error => "ERROR"
  | warn => "WARN"
  | info => "INFO"
  | debug => "DEBUG"
  | trace => "TRACE"

/-- A level by its name, in any case, or by its number, from one on. -/
def read? (s : String) : Option LogLevel :=
  let digits := match s.toList with
    | '+' :: cs => cs
    | cs => cs
  let number := if digits.isEmpty then none else (digits.mapM Decimal.digit?).map Decimal.value
  match number with
  | some 1 => some error
  | some 2 => some warn
  | some 3 => some info
  | some 4 => some debug
  | some 5 => some trace
  | some _ => none
  | none =>
    [error, warn, info, debug, trace].find? fun l =>
      l.name.toList == s.toList.map Char.toUpper

theorem read?_name (l : LogLevel) : read? l.name = some l := by
  cases l <;> rfl

end LogLevel

structure Settings where
  replaceCacheSize : Nat := 5
  extractCacheSize : Nat := 5
  missingCacheSize : Nat := 3
  level : String := "warn"
  deriving DecidableEq, Repr

namespace Settings

def levelOf (s : String) : Except Failure LogLevel :=
  match LogLevel.read? s with
  | some l => .ok l
  | none => .error (.settings (.unknownLevel s))

def maxLevel (s : Settings) : Except Failure LogLevel := levelOf s.level

def sizes (s : Settings) : List (String × Nat) :=
  [("replace_cache_size", s.replaceCacheSize), ("extract_cache_size", s.extractCacheSize),
    ("missing_cache_size", s.missingCacheSize)]

def check (s : Settings) : Except Failure Settings :=
  match s.sizes.find? (·.2 == 0) with
  | some (key, _) => .error (.settings (.zeroSize key))
  | none => s.maxLevel.map fun _ => s

theorem check_default : check {} = .ok {} := rfl

theorem maxLevel_eq_ok {s : Settings} {l : LogLevel} :
    s.maxLevel = .ok l ↔ LogLevel.read? s.level = some l := by
  unfold maxLevel levelOf
  cases LogLevel.read? s.level <;> simp

theorem check_eq_ok {s t : Settings} :
    s.check = .ok t ↔ t = s ∧ (∀ size ∈ s.sizes, 0 < size.2) ∧ ∃ l, s.maxLevel = .ok l := by
  unfold check
  split
  · rename_i key n hzero
    have hn : n = 0 := by simpa using List.find?_some hzero
    constructor
    · intro h
      cases h
    · intro h
      have hpos : 0 < n := h.2.1 _ (List.mem_of_find?_eq_some hzero)
      omega
  · rename_i hpos
    have hsizes : ∀ size ∈ s.sizes, 0 < size.2 := fun size hsize =>
      Nat.pos_of_ne_zero (by simpa using List.find?_eq_none.1 hpos size hsize)
    rw [map_eq_ok]
    exact ⟨fun ⟨l, hl, hs⟩ => ⟨hs.symm, hsizes, l, hl⟩, fun ⟨hs, _, l, hl⟩ => ⟨l, hl, hs.symm⟩⟩

/-- A failure names the setting that is at fault: a cache that would hold nothing, or else the
level. -/
theorem check_eq_error {s : Settings} {e : Failure} (h : s.check = .error e) :
    (∃ key, (key, 0) ∈ s.sizes ∧ e = .settings (.zeroSize key)) ∨
    e = .settings (.unknownLevel s.level) := by
  unfold check at h
  split at h
  · rename_i key n hzero
    have hn : n = 0 := by simpa using List.find?_some hzero
    cases h
    exact .inl ⟨key, hn ▸ List.mem_of_find?_eq_some hzero, rfl⟩
  · unfold maxLevel levelOf at h
    split at h
    · cases h
    · cases h
      exact .inr rfl

end Settings

end LazyVectors
