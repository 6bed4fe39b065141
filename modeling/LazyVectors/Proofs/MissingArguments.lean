import LazyVectors.Proofs.CallSetup
import LazyVectors.Proofs.PromiseStates
import LazyVectors.Proofs.Walks
/-!
What it means for the value of an argument that it is missing. Following an argument and
evaluating it are two walks along the same promises: the one looks only at promises that were
not evaluated, the other marks what it passes. What ties them together is that a promise
evaluated from a bare name found a value behind that name, and that such a name keeps one.
-/

set_option autoImplicit false

namespace LazyVectors

variable {ω μ : Type} [Foreign ω] [Method μ]

namespace Heap

variable {h h' : Heap} {roots : List Handle} {p : PromiseId} {r : Promise} {f : FrameId}
  {name : String} {level k : Nat}

theorem lookup?_of_local? {b : Binding} (hb : h.local? f name = some b) :
    h.lookup? f name = some b := by
  simp [lookup?, chain, chainUpTo, hb]

theorem lt_of_lookup? {b : Binding} (hb : h.lookup? f name = some b) : f < h.frames.size := by
  cases hf : h.frames[f]? with
  | none => simp [lookup?, chain, chainUpTo, hf, local?] at hb
  | some fr => exact (Array.getElem?_eq_some_iff.1 hf).1

theorem ne_of_evaluated {q : PromiseId} {r' : Promise} (hr : h.promises[p]? = some r)
    (hne : r.state ≠ .evaluated) (hr' : h.promises[q]? = some r') (he : r'.state = .evaluated) :
    p ≠ q := by
  rintro rfl
  rw [hr] at hr'
  cases hr'
  exact hne he

/-- How a name is bound in a frame from which it was looked up with success: not at all, to a
value, or to a promise that has been evaluated, other than a given one. -/
structure Grounded (h : Heap) (p : PromiseId) (f : FrameId) (name : String) : Prop where
  frame : f < h.frames.size
  binding : ∀ {b : Binding}, h.local? f name = some b → (∃ x, b = .value x) ∨
    ∃ q r, b = .promise q ∧ q ≠ p ∧ h.promises[q]? = some r ∧ r.state = .evaluated

theorem Grounded.mono (hg : h.Grounded p f name) (hframes : h.frames.size ≤ h'.frames.size)
    (hbinding : ∀ {b : Binding}, h'.local? f name = some b →
      h.local? f name = some b ∨ ∃ x, b = .value x)
    (hpromises : ∀ (q : PromiseId) (r : Promise), h.promises[q]? = some r → r.state = .evaluated →
      h'.promises[q]? = some r) : h'.Grounded p f name where
  frame := Nat.lt_of_lt_of_le hg.frame hframes
  binding hb := by
    rcases hbinding hb with hb | hx
    · rcases hg.binding hb with hx | ⟨q, r, hq, hne, hr, he⟩
      · exact .inl hx
      · exact .inr ⟨q, r, hq, hne, hpromises q r hr he, he⟩
    · exact .inl hx

theorem Grounded.ages (hg : h.Grounded p f name) (ha : h.Ages h') : h'.Grounded p f name :=
  hg.mono ha.frames (ha.binding hg.frame) fun _ _ hr he => ha.evaluated hr he

/-- Promises have values exactly when they have been evaluated, and where one was evaluated from
a bare name the name is grounded. -/
structure Consistent (h : Heap) : Prop where
  settled : h.Settled
  grounded : ∀ {p : PromiseId} {r : Promise} {f : FrameId} {name : String},
    h.promises[p]? = some r → r.state = .evaluated → r.expr = .lookup name → r.frame = some f →
    h.Grounded p f name

namespace Consistent

theorem of_ages (hc : h.Consistent) (ha : h.Ages h')
    (hnew : ∀ (p : PromiseId) (r : Promise), h'.promises[p]? = some r → r.state = .evaluated →
      h.promises[p]? = some r ∨ ∃ x, r.expr = .constant x) : h'.Consistent where
  settled := ha.settled hc.settled
  grounded {p r f name} hr he hexpr hframe := by
    rcases hnew p r hr he with hr | ⟨x, hx⟩
    · exact (hc.grounded hr he hexpr hframe).ages ha
    · simp [hx] at hexpr

theorem assign (hc : h.Consistent) (f : FrameId) (name : String) (x : Value) :
    (h.define f name (.value x)).Consistent :=
  hc.of_ages (.assign (.refl h) f name x) fun _ _ hr _ => .inl hr

theorem pushFrame (hc : h.Consistent) (fr : Frame) : (h.pushFrame fr).2.Consistent :=
  hc.of_ages (.pushFrame h fr) fun _ _ hr _ => .inl hr

theorem call {fn : Function} {c : Closure} {args : List (Arg Expr)} {caller callee : FrameId}
    (hc : h.Consistent) (hb : Call.bindArguments fn c args caller h = .ok (callee, h')) :
    h'.Consistent :=
  hc.of_ages (.bindArguments hb) fun _ _ hr he => Call.evaluated_of_bindArguments hb hr he

theorem setState (hc : h.Consistent) (hr : h.promises[p]? = some r) (hv : r.value = none)
    {s : PromiseState} (hs : s ≠ .evaluated) : (h.setState p s).Consistent where
  settled := hc.settled.setState hr hv hs
  grounded {q r' f name} hr' he hexpr hframe := by
    have hne : r.state ≠ .evaluated := (hc.settled p r hr).ne_evaluated hv
    rw [getElem?_setState] at hr'
    split at hr'
    · subst q
      rw [hr] at hr'
      cases hr'
      exact absurd he hs
    · refine (hc.grounded hr' he hexpr hframe).mono (Nat.le_refl _) .inl fun q₂ r₂ hr₂ he₂ => ?_
      rw [getElem?_setState, if_neg (ne_of_evaluated hr hne hr₂ he₂), hr₂]

theorem fulfil (hc : h.Consistent) (hr : h.promises[p]? = some r) (hv : r.value = none)
    (hself : ∀ f name, r.expr = .lookup name → r.frame = some f → h.Grounded p f name)
    (x : Value) : (h.fulfil p x).Consistent := by
  have hne : r.state ≠ .evaluated := (hc.settled p r hr).ne_evaluated hv
  have hstay : ∀ (q : PromiseId) (r' : Promise), h.promises[q]? = some r' →
      r'.state = .evaluated → (h.fulfil p x).promises[q]? = some r' := by
    intro q r' hr' he
    rw [getElem?_fulfil, if_neg (ne_of_evaluated hr hne hr' he), hr']
  refine ⟨fun q r' hr' => ?_, fun {q r' f name} hr' he hexpr hframe => ?_⟩
  · rw [getElem?_fulfil] at hr'
    split at hr'
    · subst q
      rw [hr] at hr'
      cases hr'
      exact Promise.settled_fulfilled r x
    · exact hc.settled q r' hr'
  · rw [getElem?_fulfil] at hr'
    split at hr'
    · subst q
      rw [hr] at hr'
      cases hr'
      exact (hself f name hexpr hframe).mono (Nat.le_refl _) .inl hstay
    · exact (hc.grounded hr' he hexpr hframe).mono (Nat.le_refl _) .inl hstay

end Consistent

theorem kept_consistent : Kept Consistent where
  assign f name x hc := hc.assign f name x
  call hc _ hb := hc.call hb

end Heap

namespace Eval

open Run

variable {w w' : World ω μ} {p : PromiseId} {r : Promise} {f : FrameId} {name : String} {x : Value}
  {ev : Evaluator ω μ}

theorem lookup_eq (ev : Evaluator ω μ) (held : List Handle) (name : String) (f : FrameId)
    (w : World ω μ) :
    lookup ev held name f w =
      match w.heap.lookup? f name with
      | none => .error (.failure (.notFound name)) w
      | some (.value x) => .ok x w
      | some (.promise p) => force ev held p w
      | some .missing => .error (.failure (.missingArgument name)) w := by
  rw [lookup, get_bind]
  cases w.heap.lookup? f name with
  | none => rfl
  | some b => cases b <;> rfl

theorem lookup_of_promise (hb : w.heap.local? f name = some (.promise p)) (ev : Evaluator ω μ)
    (held : List Handle) : lookup ev held name f w = force ev held p w := by
  rw [lookup_eq, Heap.lookup?_of_local? hb]

theorem lookup_grounded (hev : Ageing ev) {held : List Handle} (hs : w.heap.Settled)
    (hr : w.heap.promises[p]? = some r) (hu : r.state = .underEvaluation)
    (hok : lookup ev held name f w = .ok x w') : w'.heap.Grounded p f name := by
  rw [lookup_eq] at hok
  split at hok <;> rename_i hb
  · cases hok
  · cases hok
    refine ⟨Heap.lt_of_lookup? hb, fun hb' => ?_⟩
    rw [Heap.lookup?_of_local? hb'] at hb
    exact .inl ⟨_, Option.some.inj hb⟩
  · rename_i q
    have hages : w.heap.Ages w'.heap := after_ok hok ▸ hev.force held q hs
    obtain ⟨r', hr', he, -⟩ := hev.evaluated hs hok
    have hq : p ≠ q :=
      Heap.ne_of_evaluated (hages.underEvaluation hr hu) (by simp [hu]) hr' he
    have hf : f < w.heap.frames.size := Heap.lt_of_lookup? hb
    refine ⟨Nat.lt_of_lt_of_le hf hages.frames, fun hb' => ?_⟩
    rcases hages.binding hf hb' with hb' | hx
    · rw [Heap.lookup?_of_local? hb'] at hb
      cases hb
      exact .inr ⟨q, r', rfl, hq.symm, hr', he⟩
    · exact .inl hx
  · cases hok

theorem force_consistent (hages : Ageing ev)
    (hev : ∀ held e env, Keeps Heap.Consistent (ev held e env))
    (hground : ∀ {held : List Handle} {name : String} {f : FrameId} {w w' : World ω μ}
      {p : PromiseId} {r : Promise} {x : Value}, w.heap.Settled →
      w.heap.promises[p]? = some r → r.state = .underEvaluation →
      ev held (.lookup name) f w = .ok x w' → w'.heap.Grounded p f name)
    (held : List Handle) (p : PromiseId) : Keeps Heap.Consistent (force ev held p) := by
  intro w hc
  refine ⟨rfl, ?_⟩
  -- only an evaluation behind a mark changes the heap
  rcases force_cases held p w with ⟨r, x, -, -, h⟩ | ⟨e, h⟩ | ⟨r, f, hr, hv, hu, hframe, h⟩
  · rwa [after_ok (h ev)]
  · rwa [after_error (h ev)]
  · have hne : r.state ≠ .evaluated := ((hc.settled p r hr).waiting hv hu).1
    have hmarked : (w.entered p).heap.Consistent := hc.setState hr hv (by simp)
    have hold : (w.entered p).heap.promises[p]? =
        some { r with state := .underEvaluation } := by
      simp [World.entered, Heap.getElem?_setState, hr]
    have hafter := (hev (.promise p :: .frame f :: held) r.expr f _ hmarked).2
    have hstays := (hages.after (.promise p :: .frame f :: held) r.expr f
      hmarked.settled).underEvaluation hold rfl
    have hforce := h ev
    cases hres : ev (.promise p :: .frame f :: held) r.expr f (w.entered p) with
    | error e w' =>
      rw [hres] at hforce
      rw [after_error hres] at hafter hstays
      rw [after_error hforce]
      exact hafter.setState hstays hv hne
    | ok x w' =>
      rw [hres] at hforce
      rw [after_ok hres] at hafter hstays
      rw [after_ok hforce]
      refine hafter.fulfil hstays hv (fun g name hexpr hg => ?_) x
      have hexpr : r.expr = .lookup name := hexpr
      have hfg : f = g := Option.some.inj (hframe.symm.trans hg)
      rw [hexpr, hfg] at hres
      exact hground hmarked.settled hold rfl hres

end Eval

theorem eval_grounded [Memory] (n : Nat) {held : List Handle} {name : String}
    {f : FrameId} {w w' : World ω μ} {p : PromiseId} {r : Promise} {x : Value}
    (hs : w.heap.Settled) (hr : w.heap.promises[p]? = some r) (hu : r.state = .underEvaluation)
    (hok : eval n held (.lookup name) f w = .ok x w') : w'.heap.Grounded p f name := by
  cases n with
  | zero => cases hok
  | succ n => exact Eval.lookup_grounded (eval_ages n) hs hr hu hok

theorem eval_consistent [Memory] (n : Nat) (held : List Handle) (e : Expr) (env : FrameId) :
    Run.Keeps Heap.Consistent (eval n held e env : Run ω μ Value) := by
  induction n generalizing held e env with
  | zero => exact Run.Keeps.throw _
  | succ n ih =>
    exact Eval.step_alike Heap.kept_consistent ih
      (Eval.force_consistent (eval_ages n) ih (eval_grounded n)) held e env

/-- The heaps that runs come to from the one with only the global frame, whatever functions there
are: between two runs, and at any point inside one, while calls and promises are being evaluated. -/
inductive Heap.Reached : Heap → Prop where
  | start (functions : Program) : Reached (Heap.newTop { functions := functions }).2
  | function {h : Heap} (f : Function) :
    Reached h → Reached { h with functions := h.functions.push f }
  | frame {h : Heap} (origin : Origin) (parent : Option FrameId) :
    Reached h → Reached (h.pushFrame ⟨origin, parent, []⟩).2
  | assign {h : Heap} (f : FrameId) (name : String) (x : Value) :
    Reached h → Reached (h.define f name (.value x))
  /-- The arguments of a call are bound, and its body is about to be evaluated. -/
  | call {h h' : Heap} {f : Function} {c : Closure} {args : List (Arg Expr)}
    {caller callee : FrameId} : Reached h → h.functions[c.function]? = some f →
    Call.bindArguments f c args caller h = .ok (callee, h') → Reached h'
  /-- A promise is about to be evaluated. -/
  | enter {h : Heap} {p : PromiseId} {r : Promise} : Reached h →
    h.promises[p]? = some r → r.value = none → r.state ≠ .underEvaluation →
    Reached (h.setState p .underEvaluation)
  /-- A promise was forced, with success or without. -/
  | forced {ω μ : Type} [Foreign ω] [Method μ] [Memory] {w : World ω μ} (n : Nat)
    (held : List Handle) (p : PromiseId) :
    Reached w.heap → Reached ((Eval.force (eval n) held p).after w).heap

namespace Heap

theorem kept_reached : Kept Reached where
  assign f name x hr := hr.assign f name x
  call hr hf hb := hr.call hf hb

namespace Reached

theorem force_keeps [Memory] (n : Nat) (held : List Handle) (p : PromiseId) :
    Run.Keeps Reached (Eval.force (eval n) held p : Run ω μ Value) :=
  fun _ hw => ⟨rfl, hw.forced n held p⟩

theorem eval_keeps [Memory] (n : Nat) (held : List Handle) (e : Expr) (env : FrameId) :
    Run.Keeps Reached (eval n held e env : Run ω μ Value) := by
  induction n generalizing held e env with
  | zero => exact Run.Keeps.throw _
  | succ n ih => exact Eval.step_alike kept_reached ih (force_keeps n) held e env

theorem step_eq [Memory] {n : Nat} {ev : Evaluator ω μ}
    (hev : ∀ held e env (w : World ω μ), w.heap.Reached →
      ev held e env w = eval n held e env w)
    (held : List Handle) (e : Expr) (env : FrameId) {w : World ω μ} (hw : w.heap.Reached) :
    Eval.step ev held e env w = eval (n + 1) held e env w := by
  have halike : ∀ held e env, Run.Alike Reached (eval n held e env) (ev held e env) :=
    fun held e env w hw => ⟨(hev held e env w hw).symm, (eval_keeps n held e env w hw).2⟩
  have hforce : ∀ held p,
      Run.Alike Reached (Eval.force (eval n) held p) (Eval.force ev held p) := by
    intro held p w hw
    refine ⟨?_, hw.forced n held p⟩
    rcases Eval.force_cases held p w with ⟨r, x, -, -, h⟩ | ⟨e, h⟩ | ⟨r, f, hr, hv, hu, -, h⟩
    · rw [h, h]
    · rw [h, h]
    · rw [h, h, hev _ _ _ (w.entered p) (hw.enter hr hv hu)]
  exact (Eval.step_alike kept_reached halike hforce held e env w hw).1.symm

theorem consistent {h : Heap} (hr : h.Reached) : h.Consistent := by
  induction hr with
  | start functions => exact ⟨fun p r hr => by simp [newTop, pushFrame] at hr,
      fun hr => by simp [newTop, pushFrame] at hr⟩
  | function f _ ih => exact ⟨ih.settled, fun hr he hexpr hframe =>
      (ih.grounded hr he hexpr hframe).mono (Nat.le_refl _) .inl fun _ _ hr _ => hr⟩
  | frame origin parent _ ih => exact ih.pushFrame _
  | assign f name x _ ih => exact ih.assign f name x
  | call _ _ hb ih => exact ih.call hb
  | enter _ hr hv _ ih => exact ih.setState hr hv (by simp)
  | forced n held p _ ih =>
    exact (Eval.force_consistent (eval_ages n) (eval_consistent n)
      (eval_grounded n) held p _ ih).2

end Reached

variable {h h' : Heap} {roots : List Handle} {p : PromiseId} {r : Promise} {f : FrameId}
  {name : String} {level k : Nat}

/-- What a walk has met that answers that an argument is missing. -/
theorem missing_cases (hw : walk roots (k + 1) h name f level = some (true, h')) :
    h.local? f name = some .missing ∨
    ∃ p r, h.local? f name = some (.promise p) ∧ h.promises[p]? = some r ∧
      ((level = 0 ∧ r.isDefault = true ∨ r.state = .underEvaluation) ∨
        (level = 0 ∨ r.state ≠ .evaluated) ∧ r.state ≠ .underEvaluation ∧
        ∃ next g mark h'', r.expr = .lookup next ∧ r.frame = some g ∧
          (mark = some p ∨ mark = none ∧ r.state ≠ .evaluated) ∧
          walk roots k (h.marked mark) next g 1 = some (true, h'')) := by
  rw [walk_succ] at hw
  cases hv : h.verdict roots name f level with
  | settled b =>
    simp only [hv, Option.some.injEq, Prod.mk.injEq] at hw
    obtain ⟨rfl, -⟩ := hw
    rcases verdict_missing hv with hb | ⟨p, r, hb, hr, hcases⟩
    · exact .inl hb
    · exact .inr ⟨p, r, hb, hr, .inl hcases⟩
  | forwarded next g mark =>
    simp only [hv] at hw
    obtain ⟨⟨b, h''⟩, hnext, heq⟩ := Option.map_eq_some_iff.1 hw
    cases heq
    rw [walk_deep (Nat.succ_ne_zero level) Nat.one_ne_zero] at hnext
    obtain ⟨p, r, hb, hr, hlevel, hu, hexpr, hg, hmark⟩ := verdict_forwarded hv
    exact .inr ⟨p, r, hb, hr, .inr ⟨hlevel, hu, next, g, mark, h'', hexpr, hg, hmark, hnext⟩⟩

theorem Grounded.not_missing (hg : h.Grounded p f name) :
    walk roots k (h.marked (some p)) name f 1 ≠ some (true, h') := by
  intro hw
  cases k with
  | zero => cases hw
  | succ k =>
    have hlocal : (h.marked (some p)).local? f name = h.local? f name :=
      local?_congr (frames_marked h (some p)) f name
    rcases missing_cases hw with hb | ⟨q, r, hb, hr, hcases⟩
    · rcases hg.binding (hlocal ▸ hb) with ⟨x, hx⟩ | ⟨q, r, hq, -⟩
      · cases hx
      · cases hq
    · rcases hg.binding (hlocal ▸ hb) with ⟨x, hx⟩ | ⟨q', r', hq, hne, hr', he⟩
      · cases hx
      · cases hq
        rw [marked, getElem?_setState, if_neg hne.symm, hr'] at hr
        cases hr
        simp [he] at hcases

theorem Consistent.not_evaluated (hc : h.Consistent)
    (hw : walk roots k h name f 0 = some (true, h')) (hb : h.local? f name = some (.promise p))
    (hr : h.promises[p]? = some r) (hsupplied : r.isDefault = false) : r.state ≠ .evaluated := by
  intro he
  cases k with
  | zero => cases hw
  | succ k =>
    rcases missing_cases hw with hmissing | ⟨q, r', hq, hr', hcases⟩
    · simp [hb] at hmissing
    · rw [hb] at hq
      cases hq
      rw [hr] at hr'
      cases hr'
      rcases hcases with hcases | ⟨-, -, next, g, mark, h'', hexpr, hg, hmark, hnext⟩
      · simp [hsupplied, he] at hcases
      · rcases hmark with rfl | ⟨-, hne⟩
        · exact (hc.grounded hr he hexpr hg).not_missing hnext
        · exact hne he

/-- A heap with the marks of another, and perhaps more. -/
structure Marks (h h' : Heap) : Prop where
  frames : h'.frames = h.frames
  promise : ∀ {q : PromiseId} {r : Promise}, h.promises[q]? = some r →
    h'.promises[q]? = some r ∨ h'.promises[q]? = some { r with state := .underEvaluation }

theorem Marks.refl (h : Heap) : h.Marks h := ⟨rfl, .inl⟩

theorem Marks.enter (hm : h.Marks h') {mark : Option PromiseId}
    (hmark : mark = some p ∨ mark = none) :
    (h.marked mark).Marks (h'.setState p .underEvaluation) where
  frames := by simpa using hm.frames
  promise {q r} hr := by
    rw [getElem?_setState]
    by_cases hq : p = q
    · subst q
      rcases hmark with rfl | rfl
      · rw [marked, getElem?_setState, if_pos rfl] at hr
        obtain ⟨r₀, hr₀, rfl⟩ := Option.map_eq_some_iff.1 hr
        rcases hm.promise hr₀ with h' | h' <;> simp [h']
      · rcases hm.promise hr with h' | h' <;> simp [h']
    · rw [if_neg hq]
      refine hm.promise ?_
      rcases hmark with rfl | rfl
      · rwa [marked, getElem?_setState, if_neg hq] at hr
      · exact hr

end Heap

inductive Eval.Blocked : Stop → Prop where
  | missing (name : String) : Blocked (.failure (.missingArgument name))
  | circular : Blocked (.failure .recursiveForce)
  | gone : Blocked (.failure (.runtime .frameGone))

/-- Where a walk answers that an argument is missing the evaluation is stopped: it passes the same
promises, and marks at least those that the walk marks. -/
theorem Eval.lookup_blocked [Memory] {roots : List Handle} {k : Nat} {h h' : Heap}
    {name : String} {f : FrameId} {level : Nat}
    (hw : Heap.walk roots k h name f level = some (true, h'))
    (hfirst : ∀ p r, h.local? f name = some (.promise p) → h.promises[p]? = some r → level = 0 →
      r.isDefault = false ∧ r.state ≠ .evaluated)
    {w : World ω μ} (hm : h.Marks w.heap) (hs : w.heap.Settled) (n : Nat) (held : List Handle) :
    ∃ e w', Eval.lookup (eval n) held name f w = .error e w' ∧
      (Blocked e ∨ e = .exhausted ∧ n < k) := by
  -- the induction is on the walk; the evaluation takes the same steps
  induction k generalizing h h' name f level w n held with
  | zero => cases hw
  | succ k ih =>
    have hlocal : ∀ {b : Binding}, h.local? f name = some b → w.heap.lookup? f name = some b :=
      fun hb => Heap.lookup?_of_local? (by rwa [Heap.local?_congr hm.frames])
    rcases Heap.missing_cases hw with hb | ⟨p, r, hb, hr, hcases⟩
    · exact ⟨.failure (.missingArgument name), w, by rw [lookup_eq, hlocal hb],
        .inl (.missing name)⟩
    · simp only [lookup_eq, hlocal hb]
      -- a promise that either of the two has marked ends the evaluation
      have hmarked : ∀ r', w.heap.promises[p]? = some r' → r'.state = .underEvaluation →
          ∃ e w', force (eval n) held p w = .error e w' ∧
            (Blocked e ∨ e = .exhausted ∧ n < k + 1) := by
        intro r' hr' hu
        have hv : r'.value = none := (hs p r' hr').value_of_ne (by simp [hu])
        exact ⟨_, w, force_of_underEvaluation hr' hv hu _ held, .inl .circular⟩
      rcases hm.promise hr with hr' | hr'
      · rcases hcases with (⟨hlevel, hdefault⟩ | hu) |
          ⟨hevaluated, hu, next, g, mark, h'', hexpr, hg, hmark, hnext⟩
        · simp [(hfirst p r hb hr hlevel).1] at hdefault
        · exact hmarked r hr' hu
        · have hne : r.state ≠ .evaluated :=
            hevaluated.elim (fun hlevel => (hfirst p r hb hr hlevel).2) id
          have hv : r.value = none := (hs p r hr').value_of_ne hne
          cases hf : w.heap.frameOf? (.promise p :: w.roots held) r with
          | none => exact ⟨_, w, force_of_gone hr' hv hu hf _, .inl .gone⟩
          | some g' =>
            have hframe : r.frame = some g' := (Option.filter_eq_some_iff.1 hf).1
            obtain rfl : g' = g := Option.some.inj (hframe.symm.trans hg)
            rw [force_entered hr' hv hu hf, hexpr]
            cases n with
            | zero => exact ⟨.exhausted, _, rfl, .inr ⟨rfl, Nat.succ_pos k⟩⟩
            | succ n =>
              have hm' : (h.marked mark).Marks (w.entered p).heap :=
                hm.enter (hmark.imp id And.left)
              have hs' : (w.entered p).heap.Settled := hs.setState hr' hv (by simp)
              obtain ⟨e, w', heq, he⟩ := ih hnext (by simp) hm' hs' n
                (.promise p :: .frame g' :: held)
              have hstep : eval (n + 1) (.promise p :: .frame g' :: held) (.lookup next) g'
                  (w.entered p) = .error e w' := heq
              refine ⟨e, _, by rw [hstep]; rfl, ?_⟩
              exact he.imp id fun hn => ⟨hn.1, Nat.succ_lt_succ hn.2⟩
      · exact hmarked _ hr' rfl

/-- What is missing cannot be evaluated. Wherever a run of a program has come to, a supplied
argument that is said to be missing has not been evaluated, and looking it up fails however
deeply it may nest: no argument was supplied at the other end, it is handed on in circles, or a
frame on the way is gone. -/
theorem missing_argument_has_no_value [Memory] {w : World ω μ} (hw : w.heap.Reached)
    {roots : List Handle} {name : String} {f : FrameId} {h' : Heap}
    (hmissing : w.heap.isMissing? roots name f 0 = some (true, h'))
    (hsupplied : ∀ p r, w.heap.local? f name = some (.promise p) →
      w.heap.promises[p]? = some r → r.isDefault = false) :
    (∀ p r, w.heap.local? f name = some (.promise p) → w.heap.promises[p]? = some r →
      r.state ≠ .evaluated) ∧
    ∀ (n : Nat) (held : List Handle),
      ∃ e w', Eval.lookup (eval n) held name f w = .error e w' ∧
        (Eval.Blocked e ∨ e = .exhausted ∧ n < w.heap.walkBound) := by
  have hevaluated : ∀ p r, w.heap.local? f name = some (.promise p) →
      w.heap.promises[p]? = some r → r.state ≠ .evaluated :=
    fun p r hb hr => hw.consistent.not_evaluated hmissing hb hr (hsupplied p r hb hr)
  exact ⟨hevaluated, fun n held => Eval.lookup_blocked hmissing
    (fun p r hb hr _ => ⟨hsupplied p r hb hr, hevaluated p r hb hr⟩) (.refl _)
    hw.consistent.settled n held⟩

def handingOn : Program := #[
  ⟨some "g", [⟨"x", none⟩], .call (.lookup "h") [.positional (.lookup "x")]⟩,
  ⟨some "h", [⟨"y", none⟩], .lookup "y"⟩]

def insideCall : Heap where
  frames := #[⟨.top 0, none, []⟩, ⟨.call 0, some 0, [("x", .missing)]⟩]
  functions := handingOn

def insideCalls : World Records PlainMethod :=
  { World.ofSizes [] 5 5 3 with
    heap := {
      frames := insideCall.frames.push ⟨.call 1, some 0, [("y", .promise 0)]⟩
      promises := #[.argument (.lookup "x") 1]
      functions := handingOn } }

section

attribute [local instance] Memory.unbounded

theorem missing_argument_has_no_value_insideCalls :
    insideCalls.heap.Reached ∧
    insideCalls.heap.isMissing? [.frame 2] "y" 2 0 = some (true, insideCalls.heap) ∧
    ∀ (n : Nat) (held : List Handle),
      ∃ e w', Eval.lookup (eval n) held "y" 2 insideCalls = .error e w' ∧
        (Eval.Blocked e ∨ e = .exhausted ∧ n < insideCalls.heap.walkBound) := by
  have hg : Call.bindArguments handingOn[0] ⟨0, 0, some "g"⟩ [] 0
      (Heap.newTop { functions := handingOn }).2 = .ok (1, insideCall) := rfl
  have hh : Call.bindArguments handingOn[1] ⟨1, 0, some "h"⟩ [.positional (.lookup "x")] 1
      insideCall = .ok (2, insideCalls.heap) := rfl
  have hreached : insideCalls.heap.Reached :=
    ((Heap.Reached.start handingOn).call rfl hg).call rfl hh
  have hmissing : insideCalls.heap.isMissing? [.frame 2] "y" 2 0 =
      some (true, insideCalls.heap) := rfl
  refine ⟨hreached, hmissing, ?_⟩
  refine (missing_argument_has_no_value hreached hmissing fun p r hb hr => ?_).2
  cases hb
  cases hr
  rfl

end

end LazyVectors
