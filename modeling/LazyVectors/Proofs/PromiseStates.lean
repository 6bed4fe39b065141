import LazyVectors.Proofs.Runs
/-!
The states of promises during evaluation. A promise is forced by marking it, evaluating its
expression in its frame, and then giving it the value or taking the mark back. So a heap ages by
every evaluation, successful or not.
-/

set_option autoImplicit false

namespace LazyVectors

variable {ω μ : Type}

namespace World

/-- The world in which the expression of a promise is evaluated. -/
def entered (w : World ω μ) (p : PromiseId) : World ω μ :=
  { w with heap := w.heap.setState p .underEvaluation }

end World

namespace Eval

open Run

variable [Foreign ω] [Method μ] {w w' : World ω μ} {id : PromiseId} {r : Promise} {x : Value}

def leave (id : PromiseId) (state : PromiseState) :
    EStateM.Result Stop (World ω μ) Value → EStateM.Result Stop (World ω μ) Value
  | .ok x w => .ok x { w with heap := w.heap.fulfil id x }
  | .error e w => .error e { w with heap := w.heap.setState id state }

theorem force_of_value (hr : w.heap.promises[id]? = some r) (hx : r.value = some x)
    (ev : Evaluator ω μ) (held : List Handle) : force ev held id w = .ok x w := by
  simp [force, hr, hx]

theorem force_of_underEvaluation (hr : w.heap.promises[id]? = some r) (hv : r.value = none)
    (hu : r.state = .underEvaluation) (ev : Evaluator ω μ) (held : List Handle) :
    force ev held id w = .error (.failure .recursiveForce) w := by
  simp [force, hr, hv, hu]

theorem force_of_gone {held : List Handle} (hr : w.heap.promises[id]? = some r)
    (hv : r.value = none) (hu : r.state ≠ .underEvaluation)
    (hf : w.heap.frameOf? (.promise id :: w.roots held) r = none) (ev : Evaluator ω μ) :
    force ev held id w = .error (.failure (.runtime .frameGone)) w := by
  simp [force, hr, hv, hu, hf]

theorem force_entered {held : List Handle} {f : FrameId} (hr : w.heap.promises[id]? = some r)
    (hv : r.value = none) (hu : r.state ≠ .underEvaluation)
    (hf : w.heap.frameOf? (.promise id :: w.roots held) r = some f) (ev : Evaluator ω μ) :
    force ev held id w =
      leave id r.state (ev (.promise id :: .frame f :: held) r.expr f (w.entered id)) := by
  simp only [force, hr, hv, hu, if_false, hf, World.entered]
  split <;> rename_i heq <;> rw [heq] <;> rfl

/-- All that forcing can do: answer the value at once, fail at once, or evaluate the expression
behind a mark. -/
theorem force_cases (held : List Handle) (id : PromiseId) (w : World ω μ) :
    (∃ r x, w.heap.promises[id]? = some r ∧ r.value = some x ∧
      ∀ ev, force ev held id w = .ok x w) ∨
    (∃ e, ∀ ev, force ev held id w = .error e w) ∨
    ∃ r f, w.heap.promises[id]? = some r ∧ r.value = none ∧ r.state ≠ .underEvaluation ∧
      r.frame = some f ∧ ∀ ev, force ev held id w =
        leave id r.state (ev (.promise id :: .frame f :: held) r.expr f (w.entered id)) := by
  cases hr : w.heap.promises[id]? with
  | none => exact .inr (.inl ⟨.failure (.runtime .frameGone), fun ev => by simp [force, hr]⟩)
  | some r =>
    cases hv : r.value with
    | some x => exact .inl ⟨r, x, rfl, hv, fun ev => force_of_value hr hv ev held⟩
    | none =>
      by_cases hu : r.state = .underEvaluation
      · exact .inr (.inl ⟨_, fun ev => force_of_underEvaluation hr hv hu ev held⟩)
      · cases hf : w.heap.frameOf? (.promise id :: w.roots held) r with
        | none => exact .inr (.inl ⟨_, force_of_gone hr hv hu hf⟩)
        | some f =>
          have hframe : r.frame = some f := (Option.filter_eq_some_iff.1 hf).1
          exact .inr (.inr ⟨r, f, rfl, hv, hu, hframe, force_entered hr hv hu hf⟩)

theorem force_alike {I : Heap → Prop} {ev ev' : Evaluator ω μ} (held : List Handle) (id : PromiseId)
    (henter : ∀ {w : World ω μ} {r : Promise} {f : FrameId}, I w.heap →
      w.heap.promises[id]? = some r → r.value = none → r.state ≠ .underEvaluation →
      r.frame = some f →
      let m := ev (.promise id :: .frame f :: held) r.expr f
      m (w.entered id) = ev' (.promise id :: .frame f :: held) r.expr f (w.entered id) ∧
        (∀ x, I ((m.after (w.entered id)).heap.fulfil id x)) ∧
        I ((m.after (w.entered id)).heap.setState id r.state)) :
    Alike I (force ev held id) (force ev' held id) := by
  intro w hw
  rcases force_cases held id w with ⟨r, x, -, -, h⟩ | ⟨e, h⟩ | ⟨r, f, hr, hv, hu, hf, h⟩
  · exact ⟨by rw [h, h], by rwa [after_ok (h ev)]⟩
  · exact ⟨by rw [h, h], by rwa [after_error (h ev)]⟩
  · obtain ⟨hsame, hfulfil, hback⟩ := henter hw hr hv hu hf
    refine ⟨by rw [h, h, hsame], ?_⟩
    have hev := h ev
    cases hres : ev (.promise id :: .frame f :: held) r.expr f (w.entered id) with
    | ok x w' =>
      rw [hres] at hev
      rw [after_ok hres] at hfulfil
      rw [after_ok hev]
      exact hfulfil x
    | error e w' =>
      rw [hres] at hev
      rw [after_error hres] at hback
      rw [after_error hev]
      exact hback

/-- An evaluator that ages every settled heap. -/
def Ageing (ev : Evaluator ω μ) : Prop :=
  ∀ h : Heap, h.Settled → ∀ held e env, Keeps h.Ages (ev held e env)

omit [Foreign ω] [Method μ] in
theorem Ageing.after {ev : Evaluator ω μ} (hev : Ageing ev) (held : List Handle) (e : Expr)
    (env : FrameId) (hs : w.heap.Settled) : w.heap.Ages ((ev held e env).after w).heap :=
  (hev w.heap hs held e env w (.refl _)).2

theorem Ageing.force {ev : Evaluator ω μ} (hev : Ageing ev) (held : List Handle) (id : PromiseId)
    (hs : w.heap.Settled) : w.heap.Ages ((Eval.force ev held id).after w).heap := by
  have hkeeps : Keeps w.heap.Ages (Eval.force ev held id) := by
    refine force_alike held id fun {w' r f} ha hr hv hu _ => ?_
    have hs' := ha.settled hs
    have hw := (hs' id r hr).waiting hv hu
    have hages := hev.after (.promise id :: .frame f :: held) r.expr f
      (w := w'.entered id) (hs'.setState hr hv (by simp))
    have hback := ha.trans (.of_restored hr hw hages)
    exact ⟨rfl, fun x => ha.trans (.of_fulfilled hr hw hages x), hback⟩
  exact (hkeeps w (.refl _)).2

theorem Ageing.evaluated {ev : Evaluator ω μ} (hev : Ageing ev) {held : List Handle}
    (hs : w.heap.Settled) (hok : Eval.force ev held id w = .ok x w') :
    ∃ r, w'.heap.promises[id]? = some r ∧ r.state = .evaluated ∧ r.value = some x := by
  rcases force_cases held id w with ⟨r, y, hr, hy, h⟩ | ⟨e, h⟩ | ⟨r, f, hr, hv, hu, -, h⟩
  · rw [h ev] at hok
    cases hok
    exact ⟨r, hr, (hs id r hr).2 (by simp [hy]), hy⟩
  · rw [h ev] at hok
    cases hok
  · have hages := hev.after (.promise id :: .frame f :: held) r.expr f
      (w := w.entered id) (hs.setState hr hv (by simp))
    rw [h ev] at hok
    cases hres : ev (.promise id :: .frame f :: held) r.expr f (w.entered id) with
    | error e w₁ =>
      rw [hres] at hok
      cases hok
    | ok y w₁ =>
      rw [hres] at hok
      rw [after_ok hres] at hages
      cases hok
      exact ⟨_, by simp [Heap.getElem?_fulfil, Heap.getElem?_entered hr hages]; rfl, rfl, rfl⟩

end Eval

theorem Heap.kept_ages (h : Heap) : Heap.Kept h.Ages where
  assign f name x ha := ha.assign f name x
  call ha _ hb := ha.trans (Heap.Ages.bindArguments hb)

theorem eval_ages [Memory] [Foreign ω] [Method μ] (n : Nat) :
    Eval.Ageing (eval n : Evaluator ω μ) := by
  induction n with
  | zero => exact fun h hs held e env => Run.Keeps.throw _
  | succ n ih =>
    intro h hs held e env
    refine Eval.step_alike (h.kept_ages) (ih h hs) (fun held id w ha => ?_) held e env
    exact ⟨rfl, ha.trans (ih.force held id (ha.settled hs))⟩

/-- Whenever an evaluation returns, with a value or with a failure from any depth, promises still
have values exactly when they have been evaluated, and the same ones are under evaluation as
before. A promise that had been evaluated has kept its value, and every other one that was not
under evaluation is as it was or has been evaluated. Forcing it evaluates its expression only if
it has no value and is not under evaluation, and leaves it evaluated if that succeeds: so the
expression of a promise is evaluated successfully at most once. -/
theorem eval_promise_states [Memory] [Foreign ω] [Method μ] (n : Nat) (held : List Handle)
    (e : Expr) (env : FrameId) {w w' : World ω μ} (hs : w.heap.Settled)
    (hw' : (eval n held e env).after w = w') :
    w'.heap.Settled ∧
    (∀ (p : PromiseId) (r : Promise), r.state = .underEvaluation →
      (w'.heap.promises[p]? = some r ↔ w.heap.promises[p]? = some r)) ∧
    (∀ (p : PromiseId) (r : Promise), w.heap.promises[p]? = some r → r.state = .evaluated →
      w'.heap.promises[p]? = some r) ∧
    (∀ (p : PromiseId) (r : Promise), w.heap.promises[p]? = some r →
      r.state = .unevaluated ∨ r.state = .defaulted →
      w'.heap.promises[p]? = some r ∨ ∃ x, w'.heap.promises[p]? = some (r.fulfilled x)) ∧
    (∀ (p : PromiseId) (r : Promise), w'.heap.promises[p]? = some r → ∀ ev held,
      (r.state = .evaluated → ∃ x, r.value = some x ∧ Eval.force ev held p w' = .ok x w') ∧
      (r.state = .underEvaluation →
        Eval.force ev held p w' = .error (.failure .recursiveForce) w')) ∧
    ∀ (p : PromiseId) (held : List Handle) (x : Value) (w'' : World ω μ),
      Eval.force (eval n) held p w' = .ok x w'' →
      ∃ r, w''.heap.promises[p]? = some r ∧ r.state = .evaluated ∧ r.value = some x := by
  have hages : w.heap.Ages w'.heap := hw' ▸ (eval_ages n).after held e env hs
  have hs' : w'.heap.Settled := hages.settled hs
  refine ⟨hs', fun p r hu => ⟨fun hr => hages.of_underEvaluation hr hu,
    fun hr => hages.underEvaluation hr hu⟩, fun p r hr he => hages.evaluated hr he,
    fun p r hr _ => (hages.promise hr).imp id And.right, fun p r hr ev held => ⟨fun he => ?_,
    fun hu => ?_⟩, fun p held x w'' hok => (eval_ages n).evaluated hs' hok⟩
  · obtain ⟨x, hx⟩ := Option.isSome_iff_exists.1 ((hs' p r hr).1 he)
    exact ⟨x, hx, Eval.force_of_value hr hx ev held⟩
  · have hv : r.value = none := (hs' p r hr).value_of_ne (by simp [hu])
    exact Eval.force_of_underEvaluation hr hv hu ev held

def crossed : World Records PlainMethod :=
  { World.ofSizes [] 5 5 3 with
    heap := {
      frames := #[⟨.top 0, none, [("a", .promise 0), ("b", .promise 1), ("c", .promise 2)]⟩]
      promises := #[.argument (.lookup "b") 0, .argument (.lookup "a") 0,
        .argument (.block []) 0] } }

section

attribute [local instance] Memory.unbounded

/-- The failure behind "a" leaves "a" and "b" as they were; "c", which was evaluated before, keeps
its value. -/
theorem eval_promise_states_crossed :
    crossed.heap.Settled ∧
    eval 6 [] (.block [.lookup "c", .lookup "a"]) World.global crossed =
      .error (.failure .recursiveForce) { crossed with heap := crossed.heap.fulfil 2 .null } ∧
    (crossed.heap.fulfil 2 .null).Settled ∧
    ∀ (p : PromiseId) (r : Promise), r.state = .underEvaluation →
      ((crossed.heap.fulfil 2 .null).promises[p]? = some r ↔
        crossed.heap.promises[p]? = some r) := by
  have hs : crossed.heap.Settled := by decide
  have hrun : eval 6 [] (.block [.lookup "c", .lookup "a"]) World.global crossed =
      .error (.failure .recursiveForce)
        { crossed with heap := crossed.heap.fulfil 2 .null } := rfl
  obtain ⟨hs', hsame, -⟩ := eval_promise_states 6 [] _ _ hs (Run.after_error hrun)
  exact ⟨hs, hrun, hs', hsame⟩

end

end LazyVectors
