import LazyVectors.Eval
set_option autoImplicit false

namespace LazyVectors

namespace Foreign

variable {ω : Type} [Foreign ω] {rs : ω} {object target : String} {key : Key}
  {can toClass : KeyInfo → Bool}

theorem answering?_eq_some (h : answering? rs object key can toClass = some target) :
    can (keyInfo rs target key) = true ∧
      (target = object ∨ classObject? rs object = some target ∧ key.isName = true ∧
        toClass (keyInfo rs object key) = true) := by
  unfold answering? at h
  dsimp only at h
  split at h
  · rename_i hcan
    cases h
    exact ⟨hcan, .inl rfl⟩
  · split at h
    · rename_i hname
      obtain ⟨hlink, hcan⟩ := Option.filter_eq_some_iff.1 h
      exact ⟨hcan, .inr ⟨hlink, Bool.and_eq_true_iff.1 hname⟩⟩
    · cases h

theorem answering?_class (hself : can (keyInfo rs object key) = false) (hname : key.isName = true)
    (hclass : toClass (keyInfo rs object key) = true)
    (hlink : classObject? rs object = some target) (hcan : can (keyInfo rs target key) = true) :
    answering? rs object key can toClass = some target := by
  unfold answering?
  dsimp only
  rw [hself, hname, hclass, hlink]
  simp [hcan]

theorem answering?_self (hself : can (keyInfo rs object key) = true) :
    answering? rs object key can toClass = some object := by
  unfold answering?
  exact if_pos hself

end Foreign

namespace Records

variable {rs rs' : Records} {object target name : String} {key : Key} {x : Value}

/-- Afterwards there is a member of one object that holds the value, and all else is as before. -/
structure Rewritten (rs rs' : Records) (target name : String) (x : Value) : Prop where
  objects : Named.names rs' = Named.names rs
  others : ∀ o, o ≠ target → rs'.lookup o = rs.lookup o
  member : (get rs' target).members.lookup name = some x
  members : ∀ n, n ≠ name → (get rs' target).members.lookup n = (get rs target).members.lookup n
  rest : get rs' target = { get rs target with members := (get rs' target).members }

theorem get_of_lookup {r : Record} (h : rs.lookup object = some r) : get rs object = r := by
  rw [get, h]
  rfl

theorem exists_of_writable (h : ((get rs object).keyInfo name).writable = true) :
    ∃ r, rs.lookup object = some r := by
  cases hr : rs.lookup object with
  | some r => exact ⟨r, rfl⟩
  | none =>
    rw [get, hr] at h
    exact absurd h Bool.false_ne_true

theorem existing_eq_false (h : ((get rs object).keyInfo name).existing = false) :
    (get rs object).members.lookup name = none := by
  rw [Record.keyInfo] at h
  exact Option.isSome_eq_false_iff.1 h |> Option.isNone_iff_eq_none.1

theorem readable_iff : ((get rs object).keyInfo name).readable = true ↔
    ((get rs object).members.lookup name).isSome = true ∧ name ∉ (get rs object).hidden := by
  rw [Record.keyInfo, Bool.and_eq_true]
  simp

theorem writeMember_eq_ok {r : Record} (hr : rs.lookup target = some r)
    (h : writeMember rs target name x = .ok rs') :
    Rewritten rs rs' target name x ∧ name ∉ (get rs target).failing := by
  obtain ⟨r', hwrite, h⟩ := bind_eq_ok.1 h
  cases h
  unfold Record.write at hwrite
  split at hwrite
  · cases hwrite
  rename_i hfailing
  cases hwrite
  have hget : get (Named.put rs target { get rs target with
      members := (get rs target).members.put name x }) target =
        { get rs target with members := (get rs target).members.put name x } :=
    get_of_lookup (by rw [Named.lookup_put, if_pos rfl])
  refine ⟨⟨?_, fun o ho => ?_, ?_, fun n hn => ?_, ?_⟩, by simpa using hfailing⟩
  · have hmem : target ∈ Named.names rs := Named.isSome_lookup.1 (by rw [hr]; rfl)
    rw [Named.names_put, if_pos hmem]
  · rw [Named.lookup_put, if_neg ho]
  · rw [hget, Named.lookup_put, if_pos rfl]
  · rw [hget, Named.lookup_put, if_neg hn]
  · rw [hget]

/-- A write that succeeds sets a member of the object or, for a name that it does not have, of its
class object. -/
theorem write_eq_ok {ss : List Subscript} (h : Foreign.write rs object ss x = .ok rs') :
    ∃ key target, Key.ofSubscripts ss = .ok key ∧ Rewritten rs rs' target key.text x ∧
      key.text ∉ (get rs target).failing ∧
      (target = object ∨ (get rs object).classObject = some target ∧ key.isName = true ∧
        (get rs object).members.lookup key.text = none) := by
  obtain ⟨key, hkey, h⟩ := bind_eq_ok.1 h
  split at h
  · rename_i target htarget
    obtain ⟨hwritable, hwhich⟩ := Foreign.answering?_eq_some htarget
    obtain ⟨r, hr⟩ := exists_of_writable hwritable
    obtain ⟨hrewritten, hfailing⟩ := writeMember_eq_ok hr h
    refine ⟨key, target, hkey, hrewritten, hfailing, hwhich.imp id ?_⟩
    rintro ⟨hlink, hname, habsent⟩
    exact ⟨hlink, hname, existing_eq_false (Bool.not_eq_true' _ ▸ habsent)⟩
  · cases h

theorem read_of_rewritten {ss : List Subscript} (hkey : Key.ofSubscripts ss = .ok key)
    (h : Rewritten rs rs' target key.text x) (hfailing : key.text ∉ (get rs target).failing)
    (hvisible : key.text ∉ (get rs target).hidden)
    (hwhich : target = object ∨ (get rs object).classObject = some target ∧ key.isName = true ∧
      (get rs object).members.lookup key.text = none) :
    Foreign.read rs' object ss = .ok x := by
  have hreadable : ((get rs' target).keyInfo key.text).readable = true :=
    readable_iff.2 ⟨by rw [h.member]; rfl, by rw [h.rest]; exact hvisible⟩
  have hvalue : (get rs' target).read key.text = .ok x := by
    have hworks : (get rs' target).failing.contains key.text = false := by
      rw [h.rest]
      simpa using hfailing
    rw [Record.read, hworks, h.member]
    rfl
  have hanswer :
      Foreign.answering? rs' object key KeyInfo.readable (fun _ => true) = some target := by
    by_cases hself : target = object
    · rw [← hself]
      exact Foreign.answering?_self hreadable
    · obtain ⟨hlink, hname, habsent⟩ := hwhich.resolve_left hself
      have hobject : get rs' object = get rs object := by
        rw [get, get, h.others object (Ne.symm hself)]
      have hunreadable : ((get rs' object).keyInfo key.text).readable = false := by
        rw [hobject, Record.keyInfo, habsent]
        rfl
      have hlink' : (get rs' object).classObject = some target := hobject ▸ hlink
      exact Foreign.answering?_class hunreadable hname rfl hlink' hreadable
  refine bind_eq_ok.2 ⟨key, hkey, ?_⟩
  rw [hanswer]
  exact hvalue

end Records

theorem replace_foreign [Memory] {ω : Type} [Foreign ω] (rs : ω) (object : String)
    (ss : List Subscript) (x : Value) (mode : Mode) : replace rs (.foreign object) ss x mode =
      .ofExcept ((Foreign.write rs object ss x).map fun rs' => (.foreign object, rs')) := by
  have hplan : ReplacePlan.build (.of (.foreign object) ss (some x) mode) =
      .ok ⟨.of (.foreign object) ss (some x) mode, .foreign⟩ := rfl
  rw [replace, hplan, Noted.lift_ok_bind]
  unfold ReplacePlan.run ReplacePlan.runWith
  dsimp only
  cases Foreign.write rs object ss x <;> rfl

theorem Run.ofNoted_fail {ω μ α : Type} (e : Failure) (w : World ω μ) :
    Run.ofNoted (.fail e : Noted α) w = .error (.failure e) w := by
  obtain ⟨heap, records, methods, extractor, replacer, checker, warnings⟩ := w
  change EStateM.Result.error (Stop.failure e) (World.mk heap records methods extractor replacer
    checker (warnings ++ [])) = _
  rw [List.append_nil]

/-- A write to a foreign object fails and leaves the world as it was, or it sets one member of the
object or, for a name that the object does not have, of its class object; nothing else changes. What
was written is read back unless it is hidden. -/
theorem Records.write_sets_one_member [Memory] (rs : Records) (object : String)
    (ss : List Subscript) (x : Value) :
    (∃ e, Foreign.write rs object ss x = .error e ∧
      ∀ mode, replace rs (.foreign object) ss x mode = .fail e ∧
        ∀ (μ : Type) (w : World Records μ), Run.ofNoted (replace rs (.foreign object) ss x mode) w =
          .error (.failure e) w) ∨
    ∃ key target rs', Key.ofSubscripts ss = .ok key ∧
      Foreign.write rs object ss x = .ok rs' ∧
      (∀ mode, replace rs (.foreign object) ss x mode = .ok (.foreign object, rs')) ∧
      Rewritten rs rs' target key.text x ∧
      (target = object ∨ (rs.get object).classObject = some target ∧ key.isName = true ∧
        (rs.get object).members.lookup key.text = none) ∧
      (key.text ∉ (rs.get target).hidden → Foreign.read rs' object ss = .ok x) := by
  have hreplace := replace_foreign rs object ss x
  cases hwrite : Foreign.write rs object ss x with
  | error e =>
    rw [hwrite] at hreplace
    refine .inl ⟨e, rfl, fun mode => ⟨hreplace mode, fun μ w => ?_⟩⟩
    rw [hreplace mode]
    exact Run.ofNoted_fail e w
  | ok rs' =>
    rw [hwrite] at hreplace
    obtain ⟨key, target, hkey, hrewritten, hfailing, hwhich⟩ := write_eq_ok hwrite
    exact .inr ⟨key, target, rs', hkey, rfl, hreplace, hrewritten, hwhich,
      fun hvisible => read_of_rewritten hkey hrewritten hfailing hvisible hwhich⟩

end LazyVectors
