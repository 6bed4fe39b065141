import LazyVectors.Proofs.Numerals
import LazyVectors.Proofs.NumberTexts
import LazyVectors.Settings.Reading
/-!
Settings that are written out are read back. Every reader takes what was written off the front
and leaves the rest.
-/

set_option autoImplicit false

namespace LazyVectors.Settings

open Decimal

abbrev lineEnd (rest : List Char) : List Char := '\n' :: rest

namespace Moment

variable {ds : List Nat} {rest : List Char}

theorem isSome_of_mapM {cs : List Char} {es : List Nat} (h : cs.mapM digit? = some es) :
    ∀ c ∈ cs, (digit? c).isSome := by
  induction cs generalizing es with
  | nil => simp
  | cons c cs ih =>
    rw [List.mapM_cons] at h
    obtain ⟨d, hd, h⟩ := Option.bind_eq_some_iff.1 h
    obtain ⟨es, hes, -⟩ := Option.bind_eq_some_iff.1 h
    exact List.forall_mem_cons.2 ⟨by simp [hd], ih hes⟩

theorem part?_text {k low high n : Nat} {cs : List Char}
    (h : part? k low high (text ds ++ lineEnd rest) = some (n, cs)) :
    cs = text (ds.drop k) ++ lineEnd rest := by
  obtain ⟨es, hes, h⟩ := Option.bind_eq_some_iff.1 h
  have hk : k ≤ (text ds).length := by
    refine Nat.le_of_not_lt fun hlt => ?_
    have hend : '\n' ∈ (text ds ++ lineEnd rest).take k := by
      rw [List.take_append, List.mem_append, List.take_cons (by omega)]
      exact .inr List.mem_cons_self
    exact absurd (isSome_of_mapM hes _ hend) (by decide)
  simp only at h
  split at h
  · cases h
    rw [List.drop_append_of_le_length hk, text, text, List.map_drop]
  · cases h

theorem mark?_text {c : Char} (hds : ∀ d ∈ ds, d < 10) (hc : digit? c = none) (hend : c ≠ '\n') :
    mark? c (text ds ++ lineEnd rest) = none := by
  cases ds with
  | nil => exact if_neg hend.symm
  | cons d ds => exact if_neg (digitChar_ne (hds d List.mem_cons_self) hc)

theorem read?_text (hds : ∀ d ∈ ds, d < 10) : read? (text ds ++ lineEnd rest) = none := by
  have hdrop : ∀ k, ∀ d ∈ ds.drop k, d < 10 := fun k d hd => hds d (List.mem_of_mem_drop hd)
  have hdate : date? (text ds ++ lineEnd rest) = none := by
    refine Option.bind_eq_none_iff.2 fun ⟨n, cs⟩ h => ?_
    obtain rfl := part?_text h
    exact Option.bind_eq_none_iff.2 fun cs h => by
      rw [mark?_text (hdrop 4) (by decide) (by decide)] at h
      cases h
  have htime : hourAndMinute? (text ds ++ lineEnd rest) = none := by
    refine Option.bind_eq_none_iff.2 fun ⟨n, cs⟩ h => ?_
    obtain rfl := part?_text h
    exact Option.bind_eq_none_iff.2 fun cs h => by
      rw [mark?_text (hdrop 2) (by decide) (by decide)] at h
      cases h
  rw [read?, hdate, time?, htime]
  rfl

end Moment

namespace Notation

variable {ds : List Nat} {n : Nat} {rest : List Char}

theorem groupedDigits?_text (hds : ∀ d ∈ ds, d < 10) (hne : ds ≠ []) :
    groupedDigits? digit? (text ds) = some ds := by
  -- a digit is followed by another digit, never by an underscore
  induction ds with
  | nil => exact absurd rfl hne
  | cons d ds ih =>
    have hd := digit?_digitChar (hds d List.mem_cons_self)
    have hrest := fun e he => hds e (List.mem_cons_of_mem _ he)
    cases ds with
    | nil => simp [text, groupedDigits?, hd]
    | cons e es =>
      have hmark : digitChar e ≠ '_' := digitChar_ne (hrest e List.mem_cons_self) (by decide)
      have ih := ih hrest (List.cons_ne_nil _ _)
      change groupedDigits? digit? (digitChar d :: digitChar e :: text es) = _
      unfold groupedDigits?
      split
      · rename_i h
        cases h
      · rename_i h
        cases h
      · rename_i h
        exact absurd (List.cons.inj (List.cons.inj h).2).1 hmark
      · rename_i h
        cases h
        change (digit? (digitChar d)).bind _ = _
        rw [hd]
        change (groupedDigits? digit? (text (e :: es))).bind _ = _
        rw [ih]
        rfl

theorem unsigned?_digits (n : Nat) : unsigned? (text (digits n)) = some n := by
  rw [unsigned?, groupedDigits?_text (digits_lt n) (digits_ne_nil n)]
  change (if _ then none else some (value (digits n))) = some n
  rw [if_neg, value_digits]
  rintro ⟨hlen, hfirst⟩
  rcases Nat.eq_zero_or_pos n with rfl | hpos
  · rw [digits] at hlen
    exact absurd hlen (by decide)
  · exact head?_digits_ne hpos hfirst

theorem wholeNumber?_digits (n : Nat) : wholeNumber? (text (digits n)) = some (n : Int) := by
  have hbase : ∀ c cs, digit? c = none → text (digits n) ≠ '0' :: c :: cs := fun c cs hc h =>
    notMem_text (digits_lt n) hc (h ▸ List.mem_cons_of_mem _ List.mem_cons_self)
  unfold wholeNumber?
  split
  · exact absurd ‹_› (hbase _ _ (by decide))
  · exact absurd ‹_› (hbase _ _ (by decide))
  · exact absurd ‹_› (hbase _ _ (by decide))
  · obtain ⟨d, ds, hcut⟩ := List.exists_cons_of_ne_nil (digits_ne_nil n)
    have hsign : takeSign (text (digits n)) = (false, text (digits n)) := by
      rw [hcut]
      exact takeSign_digitChar (digits_lt n d (hcut ▸ List.mem_cons_self)) _
    simp only [decimal?, hsign, unsigned?_digits]
    rfl

theorem word?_digits (hn : (n : Int) ≤ Int64.maxValue.toInt) :
    word? (text (digits n)) = some (.integer n) := by
  have hletter : ∀ (c : Char) (cs : List Char), digit? c = none → text (digits n) ≠ c :: cs :=
    fun c cs hc h => notMem_text (digits_lt n) hc (h ▸ List.mem_cons_self)
  have hlogical : ¬(text (digits n) = "true".toList ∨ text (digits n) = "false".toList) :=
    not_or.2 ⟨hletter 't' _ (by decide), hletter 'f' _ (by decide)⟩
  rw [word?, if_neg hlogical, wholeNumber?_digits]
  exact if_pos ⟨Int.le_trans (by decide) (Int.natCast_nonneg n), hn⟩

theorem plainValue?_digits (hn : (n : Int) ≤ Int64.maxValue.toInt) :
    plainValue? (text (digits n) ++ lineEnd rest) = some (.integer n, lineEnd rest) := by
  have hword : ∀ c ∈ text (digits n), isWordChar c = true := by
    have hall : ∀ d < 10, isWordChar (digitChar d) = true := by decide
    intro c hc
    obtain ⟨d, hd, rfl⟩ := List.mem_map.1 hc
    exact hall d (digits_lt n d hd)
  have hend : isWordChar '\n' = false := by decide
  rw [plainValue?, Moment.read?_text (digits_lt n)]
  simp only [List.takeWhile_append_of_pos hword, List.dropWhile_append_of_pos hword,
    List.takeWhile_cons, List.dropWhile_cons, hend, Bool.false_eq_true, if_false, List.append_nil,
    word?_digits hn, Option.map_some]

theorem value?_digits (hn : (n : Int) ≤ Int64.maxValue.toInt) (room fuel : Nat) :
    value? room (fuel + 1) (text (digits n) ++ lineEnd rest) =
      some (.integer n, lineEnd rest) := by
  obtain ⟨d, ds, hcut⟩ := List.exists_cons_of_ne_nil (digits_ne_nil n)
  have hfirst : ∀ c cs, digit? c = none → text (digits n) ++ lineEnd rest ≠ c :: cs := by
    intro c cs hc h
    rw [hcut] at h
    exact digitChar_ne (digits_lt n d (hcut ▸ List.mem_cons_self)) hc (List.cons.inj h).1
  unfold value?
  split
  · exact absurd ‹_› (hfirst _ _ (by decide))
  · exact absurd ‹_› (hfirst _ _ (by decide))
  · exact absurd ‹_› (hfirst _ _ (by decide))
  · exact absurd ‹_› (hfirst _ _ (by decide))
  · exact plainValue?_digits hn

def Plain (cs : List Char) : Prop := ∀ c ∈ cs, isPlain c = true ∧ c ≠ '"' ∧ c ≠ '\\'

theorem lineText?_plain {cs : List Char} (hcs : Plain cs) {fuel : Nat} (hfuel : cs.length < fuel)
    (rest : List Char) : lineText? '"' fuel (cs ++ '"' :: rest) = some (cs, rest) := by
  induction cs generalizing fuel with
  | nil =>
    obtain ⟨fuel, rfl⟩ := Nat.exists_eq_add_one.2 hfuel
    exact if_pos rfl
  | cons c cs ih =>
    obtain ⟨fuel, rfl⟩ := Nat.exists_eq_add_one.2 (Nat.zero_lt_of_lt hfuel)
    obtain ⟨⟨hplain, hquote, hescape⟩, hrest⟩ := List.forall_mem_cons.1 hcs
    rw [List.cons_append, lineText?, if_neg hquote, if_neg (by simp [hescape]), if_pos hplain,
      ih hrest (Nat.lt_of_succ_lt_succ hfuel)]
    rfl

theorem value?_plain {s : String} (hs : Plain s.toList) (room fuel : Nat) :
    value? room (fuel + 1) ('"' :: s.toList ++ '"' :: lineEnd rest) =
      some (.text s, lineEnd rest) := by
  -- the text is not opened by three quotes
  have hblock : (s.toList ++ '"' :: lineEnd rest).take 2 ≠ ['"', '"'] := by
    cases hcut : s.toList with
    | nil => simp
    | cons c cs =>
      intro h
      exact (hs c (hcut ▸ List.mem_cons_self)).2.1 (List.cons.inj h).1
  have hlong : s.toList.length < (s.toList ++ '"' :: lineEnd rest).length + 1 := by
    rw [List.length_append]
    omega
  have hread := lineText?_plain hs hlong (lineEnd rest)
  simp only [value?, List.cons_append, quoted?, true_or, if_true, if_neg hblock, hread,
    Option.map_some, String.ofList_toList]

def BareKey (key : String) : Prop := key.toList ≠ [] ∧ ∀ c ∈ key.toList, isBare c = true

theorem ne_of_isBare {c d : Char} (hc : isBare c = true) (hd : isBare d = false) : c ≠ d := by
  rintro rfl
  rw [hd] at hc
  cases hc

theorem skipBlanks_of_isBare {c : Char} (hc : isBare c = true) (cs : List Char) :
    skipBlanks (c :: cs) = c :: cs :=
  List.dropWhile_cons_of_neg (by
    simp [ne_of_isBare hc (show isBare ' ' = false by decide),
      ne_of_isBare hc (show isBare '\t' = false by decide)])

variable {key : String} {tail : List Char}

theorem key?_bare (hkey : BareKey key) {d : Char} (hd : isBare d = false)
    (hpoint : (skipBlanks (d :: tail)).head? ≠ some '.') (fuel : Nat) :
    key? (fuel + 1) (key.toList ++ d :: tail) = some ([key], skipBlanks (d :: tail)) := by
  obtain ⟨c, cs, hcut⟩ := List.exists_cons_of_ne_nil hkey.1
  have hbare := hkey.2
  have hfirst : isBare c = true := hbare c (hcut ▸ List.mem_cons_self)
  have hpart : keyPart? (key.toList ++ d :: tail) = some (key, d :: tail) := by
    unfold keyPart?
    split
    · rename_i h
      rw [hcut] at h
      exact absurd (List.cons.inj h).1 (ne_of_isBare hfirst (by decide))
    · rename_i h
      rw [hcut] at h
      exact absurd (List.cons.inj h).1 (ne_of_isBare hfirst (by decide))
    · simp only [List.takeWhile_append_of_pos hbare, List.dropWhile_append_of_pos hbare,
        List.takeWhile_cons, List.dropWhile_cons, hd, Bool.false_eq_true, if_false,
        List.append_nil, List.isEmpty_iff, hkey.1, String.ofList_toList]
  have hskip : skipBlanks (key.toList ++ d :: tail) = key.toList ++ d :: tail := by
    rw [hcut]
    exact skipBlanks_of_isBare hfirst _
  simp only [key?, hskip, hpart, Option.bind_eq_bind, Option.bind_some]
  split
  · rename_i h
    exact absurd (congrArg List.head? h) hpoint
  · rfl

/-- A line without escapes and comments. -/
inductive Written where
  | header (name : String)
  | size (key : String) (n : Nat)
  | text (key value : String)

namespace Written

def line : Written → Line
  | header name => .header [name]
  | size key n => .entry [key] (.integer n)
  | text key value => .entry [key] (.text value)

def chars : Written → List Char
  | header name => '[' :: name.toList ++ [']', '\n']
  | size key n => key.toList ++ ' ' :: '=' :: ' ' :: Decimal.text (digits n) ++ ['\n']
  | text key value => key.toList ++ ' ' :: '=' :: ' ' :: '"' :: value.toList ++ ['"', '\n']

/-- That a line is read as it is written: keys and texts stand for themselves, and numbers fit. -/
def Fits : Written → Prop
  | header name => BareKey name
  | size key n => BareKey key ∧ (n : Int) ≤ Int64.maxValue.toInt
  | text key value => BareKey key ∧ Plain value.toList

end Written

theorem line?_entry {x : Literal} {cs : List Char} (hkey : BareKey key)
    (hvalue : ∀ fuel, value? maxNesting (fuel + 1) cs = some (x, rest))
    (hstart : skipBlanks cs = cs) :
    line? (key.toList ++ ' ' :: '=' :: ' ' :: cs) = some (.entry [key] x, rest) := by
  have hpath : key? maxNesting (key.toList ++ ' ' :: '=' :: ' ' :: cs) =
      some ([key], '=' :: ' ' :: cs) :=
    key?_bare hkey (by decide) (by simp [skipBlanks]) _
  obtain ⟨c, ds, hcut⟩ := List.exists_cons_of_ne_nil hkey.1
  have hfirst : c ≠ '[' := ne_of_isBare (hkey.2 c (hcut ▸ List.mem_cons_self)) (by decide)
  unfold line?
  split
  · rename_i h
    rw [hcut] at h
    exact absurd (List.cons.inj h).1 hfirst
  · rename_i h
    rw [hcut] at h
    exact absurd (List.cons.inj h).1 hfirst
  · rw [keyValue?, hpath]
    change ((value? maxNesting _ (skipBlanks (' ' :: cs))).bind _).map _ = _
    have hblank : skipBlanks (' ' :: cs) = cs := hstart
    rw [hblank, hvalue]
    rfl

theorem skipBlanks_digits (n : Nat) (rest : List Char) :
    skipBlanks (text (digits n) ++ rest) = text (digits n) ++ rest := by
  obtain ⟨d, ds, hcut⟩ := List.exists_cons_of_ne_nil (digits_ne_nil n)
  have hd : d < 10 := digits_lt n d (hcut ▸ List.mem_cons_self)
  rw [hcut]
  refine List.dropWhile_cons_of_neg ?_
  simp [digitChar_ne hd (show digit? ' ' = none by decide),
    digitChar_ne hd (show digit? '\t' = none by decide)]

/-- A written line is taken off the front, up to its end. -/
theorem line?_chars {l : Written} (hl : l.Fits) (rest : List Char) :
    line? (l.chars ++ rest) = some (l.line, lineEnd rest) := by
  -- a header must not look like one with two brackets; the other lines are entries
  cases l with
  | header name =>
    obtain ⟨c, cs, hcut⟩ := List.exists_cons_of_ne_nil hl.1
    have hfirst : c ≠ '[' := ne_of_isBare (hl.2 c (hcut ▸ List.mem_cons_self)) (by decide)
    have hpath : key? maxNesting (name.toList ++ ']' :: lineEnd rest) =
        some ([name], ']' :: lineEnd rest) :=
      key?_bare hl (by decide) (by simp [skipBlanks]) _
    have hchars : (Written.header name).chars ++ rest =
        '[' :: (name.toList ++ ']' :: lineEnd rest) := by simp [Written.chars]
    rw [hchars]
    unfold line?
    split
    · rename_i h
      rw [hcut] at h
      exact absurd (List.cons.inj (List.cons.inj h).2).1 hfirst
    · rename_i h
      obtain rfl := (List.cons.inj h).2
      rw [hpath]
      rfl
    · rename_i h
      exact absurd rfl (h _)
  | size key n =>
    have hchars : (Written.size key n).chars ++ rest =
        key.toList ++ ' ' :: '=' :: ' ' :: (text (digits n) ++ lineEnd rest) := by
      simp [Written.chars]
    rw [hchars]
    exact line?_entry hl.1 (value?_digits hl.2 maxNesting) (skipBlanks_digits n _)
  | text key value =>
    have hchars : (Written.text key value).chars ++ rest =
        key.toList ++ ' ' :: '=' :: ' ' :: ('"' :: value.toList ++ '"' :: lineEnd rest) := by
      simp [Written.chars]
    rw [hchars]
    exact line?_entry hl.1 (value?_plain hl.2 maxNesting) rfl

/-- A written line starts with a bracket or a letter, and so with nothing that is skipped. -/
theorem exists_cons_chars {l : Written} (hl : l.Fits) :
    ∃ c cs, l.chars = c :: cs ∧ (c = '[' ∨ isBare c = true) := by
  have hkey : ∀ {key : String}, BareKey key → ∀ cs, ∃ c ds, key.toList ++ cs = c :: ds ∧
      (c = '[' ∨ isBare c = true) := by
    intro key hkey cs
    obtain ⟨c, ds, hcut⟩ := List.exists_cons_of_ne_nil hkey.1
    exact ⟨c, ds ++ cs, by rw [hcut, List.cons_append], .inr (hkey.2 c (hcut ▸ List.mem_cons_self))⟩
  cases l with
  | header name => exact ⟨_, _, rfl, .inl rfl⟩
  | size key n => simpa [Written.chars] using hkey hl.1 _
  | text key value => simpa [Written.chars] using hkey hl.1 _

theorem skip_of_first {c : Char} (hc : c = '[' ∨ isBare c = true) (cs : List Char) :
    skipBlanks (c :: cs) = c :: cs ∧ ∀ fuel, skipSpace fuel (c :: cs) = c :: cs := by
  have hblank : skipBlanks (c :: cs) = c :: cs := by
    rcases hc with rfl | hc
    · rfl
    · exact skipBlanks_of_isBare hc cs
  have hcomment : skipComment (c :: cs) = c :: cs := by
    unfold skipComment
    split
    · rename_i h
      have hmark : isBare '#' = false := by decide
      simp [(List.cons.inj h).1, hmark] at hc
    · rfl
  have hline : newline? (c :: cs) = none := by
    unfold newline?
    split
    · rename_i h
      have hmark : isBare '\n' = false := by decide
      simp [(List.cons.inj h).1, hmark] at hc
    · rename_i h
      have hmark : isBare '\r' = false := by decide
      simp [(List.cons.inj h).1, hmark] at hc
    · rfl
  refine ⟨hblank, fun fuel => ?_⟩
  cases fuel with
  | zero => rfl
  | succ fuel => simp only [skipSpace, hblank, hcomment, hline]

theorem lines?_written {ls : List Written} (hls : ∀ l ∈ ls, l.Fits) {fuel : Nat}
    (hfuel : ls.length < fuel) :
    lines? fuel (ls.flatMap Written.chars) = some (ls.map Written.line) := by
  induction ls generalizing fuel with
  | nil =>
    obtain ⟨fuel, rfl⟩ := Nat.exists_eq_add_one.2 hfuel
    rfl
  | cons l ls ih =>
    obtain ⟨fuel, rfl⟩ := Nat.exists_eq_add_one.2 (Nat.zero_lt_of_lt hfuel)
    obtain ⟨hl, hls⟩ := List.forall_mem_cons.1 hls
    have hread := line?_chars hl (ls.flatMap Written.chars)
    obtain ⟨c, cs, hcut, hc⟩ := exists_cons_chars hl
    rw [List.flatMap_cons]
    rw [hcut, List.cons_append] at hread ⊢
    obtain ⟨hblank, hspace⟩ := skip_of_first hc (cs ++ ls.flatMap Written.chars)
    have hend : endOfLine? (lineEnd (ls.flatMap Written.chars)) =
        some (ls.flatMap Written.chars) := rfl
    have hrest := ih hls (Nat.lt_of_succ_lt_succ hfuel)
    simp only [lines?, hspace, hblank, hread, hend, hrest, Option.bind_eq_bind, Option.bind_some,
      List.map_cons]

theorem length_le_chars {ls : List Written} (hls : ∀ l ∈ ls, l.Fits) :
    ls.length ≤ (ls.flatMap Written.chars).length := by
  induction ls with
  | nil => exact Nat.le_refl 0
  | cons l ls ih =>
    obtain ⟨hl, hls⟩ := List.forall_mem_cons.1 hls
    obtain ⟨c, cs, hcut, -⟩ := exists_cons_chars hl
    have hrest := ih hls
    rw [List.flatMap_cons, hcut, List.length_cons, List.length_append, List.length_cons]
    omega

theorem read?_written {ls : List Written} (hls : ∀ l ∈ ls, l.Fits) :
    read? (String.ofList (ls.flatMap Written.chars)) = some (ls.map Written.line) := by
  unfold read?
  split
  · rename_i cs h
    rw [String.toList_ofList] at h
    cases ls with
    | nil => cases h
    | cons l ls =>
      obtain ⟨c, ds, hcut, hc⟩ := exists_cons_chars (List.forall_mem_cons.1 hls).1
      rw [List.flatMap_cons, hcut, List.cons_append] at h
      have hmark : isBare '\uFEFF' = false := by decide
      simp [(List.cons.inj h).1, hmark] at hc
  · rw [String.toList_ofList]
    exact lines?_written hls (Nat.lt_succ_of_le (length_le_chars hls))

end Notation

def written (s : Settings) : List Notation.Written :=
  .header "engine" :: (s.sizes.map fun (key, n) => .size key n) ++
    [.header "logging", .text "level" s.level]

def text (s : Settings) : String := String.ofList (s.written.flatMap Notation.Written.chars)

variable {s : Settings}

theorem fits_written (hsizes : ∀ size ∈ s.sizes, (size.2 : Int) ≤ Int64.maxValue.toInt)
    (hlevel : Notation.Plain s.level.toList) : ∀ l ∈ s.written, l.Fits := by
  have hbare : ∀ {key : String}, key.toList ≠ [] → key.toList.all Notation.isBare = true →
      Notation.BareKey key := fun hne hall => ⟨hne, List.all_eq_true.1 hall⟩
  have hkey : ∀ key ∈ ["engine", "logging", "level", "replace_cache_size", "extract_cache_size",
      "missing_cache_size"], Notation.BareKey key := by
    simp only [List.forall_mem_cons]
    refine ⟨?_, ?_, ?_, ?_, ?_, ?_, fun _ h => by cases h⟩ <;> exact hbare (by decide) rfl
  simp only [sizes, List.forall_mem_cons] at hsizes
  simp only [written, sizes, List.map_cons, List.map_nil, List.cons_append, List.nil_append,
    List.forall_mem_cons, Notation.Written.Fits]
  simp [hkey, hsizes, hlevel]

/-- The settings of the lines are the ones that were written. -/
theorem draft_written (s : Settings) :
    ∃ d : Draft, (s.written.map Notation.Written.line).foldlM Draft.line? {} = some d ∧
      d.settings = s := by
  obtain ⟨r, e, m, l⟩ := s
  exact ⟨_, rfl, rfl⟩

/-- What is written stands for the settings that were written, or for what is wrong with them. -/
theorem parse_text (hsizes : ∀ size ∈ s.sizes, (size.2 : Int) ≤ Int64.maxValue.toInt)
    (hlevel : Notation.Plain s.level.toList) : parse s.text = s.check := by
  obtain ⟨d, hd, hs⟩ := draft_written s
  rw [parse, text, Notation.read?_written (fits_written hsizes hlevel), Option.bind_some, hd]
  exact congrArg check hs

theorem plain_of_toNat {c : Char} (hlow : 35 ≤ c.toNat) (hhigh : c.toNat ≤ 122)
    (hne : c.toNat ≠ 92) : Notation.Plain [c] := by
  refine List.forall_mem_singleton.2 ⟨?_, ?_, ?_⟩
  · simp only [Notation.isPlain, Bool.or_eq_true, Bool.and_eq_true, decide_eq_true_eq, bne_iff_ne]
    omega
  · rintro rfl
    exact absurd hlow (by decide)
  · rintro rfl
    exact hne rfl

theorem plain_of_toUpper {c : Char} (hc : Notation.Plain [c.toUpper]) : Notation.Plain [c] := by
  unfold Char.toUpper at hc
  split at hc
  · rename_i hlower
    have hlow : 97 ≤ c.toNat := hlower.1
    exact plain_of_toNat (by omega) hlower.2 (by omega)
  · exact hc

theorem plain_of_digits {cs : List Char} (h : ∀ c ∈ cs, (digit? c).isSome) :
    Notation.Plain cs := by
  intro c hc
  have hdigit := h c hc
  unfold digit? at hdigit
  split at hdigit
  · rename_i hbetween
    have hlow : 48 ≤ c.toNat := hbetween.1
    have hhigh : c.toNat ≤ 57 := hbetween.2
    exact plain_of_toNat (by omega) (by omega) (by omega) c (List.mem_singleton_self c)
  · cases hdigit

theorem plain_of_read? {t : String} {l : LogLevel} (h : LogLevel.read? t = some l) :
    Notation.Plain t.toList := by
  unfold LogLevel.read? at h
  extract_lets ds number at h
  -- the text is a number, or it has the letters of a name in either case
  cases hnumber : number with
  | some n =>
    have hplain : Notation.Plain ds := by
      simp only [number] at hnumber
      split at hnumber
      · cases hnumber
      · obtain ⟨es, hes, -⟩ := Option.map_eq_some_iff.1 hnumber
        exact plain_of_digits (Moment.isSome_of_mapM hes)
    simp only [ds] at hplain
    split at hplain
    · rename_i cs hcut
      rw [hcut]
      exact List.forall_mem_cons.2 ⟨by decide, hplain⟩
    · exact hplain
  | none =>
    rw [hnumber] at h
    have hname := List.find?_some h
    have hsame : l.name.toList = t.toList.map Char.toUpper := by simpa using hname
    have hplain : Notation.Plain l.name.toList := by
      cases l <;> simp [Notation.Plain, Notation.isPlain, LogLevel.name]
    intro c hc
    refine plain_of_toUpper (fun d hd => ?_) c (List.mem_singleton_self c)
    rw [List.mem_singleton.1 hd]
    exact hplain _ (hsame ▸ List.mem_map_of_mem hc)

/-- Settings that pass the check and fit the notation are read back from their text. -/
theorem parse_text_of_check (hs : s.check = .ok s)
    (hsizes : ∀ size ∈ s.sizes, (size.2 : Int) ≤ Int64.maxValue.toInt) : parse s.text = .ok s := by
  obtain ⟨-, -, l, hl⟩ := check_eq_ok.1 hs
  rw [parse_text hsizes (plain_of_read? (maxLevel_eq_ok.1 hl)), hs]

end LazyVectors.Settings
